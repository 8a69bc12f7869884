import FortranIR.Proofs.Verification.Reduction

/-
  This file compares the checks of an operation in two modules
  that differ in its operands, if those have the same types.

  What a check asks of the operation alone has the same answer,
  be it a complaint or not.

  Main declarations:
    * `OpKind.alone`
    * `Module.SameShape.verifyKind_eq`
-/

namespace FortranIR

open Operation

variable {α β : Type}
variable {sizes : List Nat} {op : Operation} {xs items : List α} {s : Segments α}

/- The operations that are checked for nothing but their own types and attributes. -/
def OpKind.alone : OpKind → Bool
  | .constant | .undefined | .freeMem | .load | .store | .convert | .addF | .subF | .mulF | .divF
  | .addI | .subI | .mulI | .cmpF | .cmpI | .embox | .boxAddr | .genTypeDesc | .unreachable => true
  | _ => false

namespace Operation

variable (σ : ValueId → ValueId) (op : Operation)

@[simp]
theorem redirect_kind : (op.redirect σ).kind = op.kind := rfl

@[simp]
theorem redirect_operands : (op.redirect σ).operands = op.operands.map σ := rfl

@[simp]
theorem redirect_results : (op.redirect σ).results = op.results := rfl

@[simp]
theorem redirect_regions : (op.redirect σ).regions = op.regions := rfl

@[simp]
theorem redirect_successors : (op.redirect σ).successors = op.successors := rfl

@[simp]
theorem redirect_attr? (name : String) : (op.redirect σ).attr? name = op.attr? name := rfl

@[simp]
theorem redirect_symName? : (op.redirect σ).symName? = op.symName? := rfl

theorem allocSizes?_redirect : Module.allocSizes? (op.redirect σ) = Module.allocSizes? op := rfl

theorem branchSizes_redirect : Module.branchSizes (op.redirect σ) = Module.branchSizes op := rfl

end Operation

----
-- Parts of operands
----

namespace Segments

variable {f : α → β}

/- Segments of the same sizes, with other items. -/
def map (f : α → β) (s : Segments α) : Segments β := ⟨s.items.map f, s.sizes⟩

theorem isEmpty_map (s : Segments α) : (s.map f).items.isEmpty = s.items.isEmpty := List.isEmpty_map

theorem toLists_map (s : Segments α) : (s.map f).toLists = s.toLists.map (List.map f) := by
  simp only [toLists, map, length, start, List.map_map,
    Function.comp_def, List.map_take, List.map_drop]

theorem mem_items (hSegment : xs ∈ s.toLists) (hMember : x ∈ xs) : x ∈ s.items := by
  rcases List.mem_map.mp hSegment with ⟨i, -, rfl⟩
  exact List.mem_of_mem_drop (List.mem_of_mem_take hMember)

theorem Covers.map (hCovers : s.Covers) : (s.map f).Covers :=
  ⟨hCovers.1, hCovers.2.trans (List.length_map f).symm⟩

theorem split_map (hSplit : split items sizes = .ok (.ok s)) :
    split (items.map f) sizes = .ok (.ok (s.map f)) := by
  rcases split_eq_ok_iff.mp hSplit with ⟨rfl, hCovers⟩
  exact split_eq_ok_iff.mpr ⟨rfl, hCovers.map⟩

theorem segment_map (hSegment : s.segment i = .ok xs) :
    (s.map f).segment i = .ok (xs.map f) := by
  rw [segment_eq_ok_iff] at hSegment ⊢
  rw [toLists_map, List.getElem?_map, hSegment, Option.map_some]

end Segments

/- The parts of a branch with other operands. -/
def SelectParts.redirect (σ : ValueId → ValueId) (parts : SelectParts) : SelectParts := { parts with
    selector := σ parts.selector
    compare := parts.compare.map σ
    targets := parts.targets.map σ }

/- The parts of a loop with other operands. -/
def LoopParts.redirect (σ : ValueId → ValueId) (parts : LoopParts) : LoopParts := { parts with
    lower := σ parts.lower
    upper := σ parts.upper
    step := σ parts.step
    iterateIn := parts.iterateIn.map σ
    inits := parts.inits.map σ }

theorem LoopParts.redirect_carried (σ : ValueId → ValueId) (parts : LoopParts) :
    (parts.redirect σ).carried = parts.carried := by
  unfold carried leading redirect
  rw [Option.isSome_map]

namespace Module

variable {m m' : Module}

theorem selectParts_redirect (hAnswers : Answers op.selectParts parts) :
    Answers (op.redirect σ).selectParts (parts.redirect σ) := by
  rcases answers_selectParts_iff.mp hAnswers with ⟨hOperands, hCases, hDests, hCompare, hTargets,
    hCount, hCompares, hTargets', hCovers, hCovers'⟩
  refine answers_selectParts_iff.mpr ⟨?_, hCases, hDests, hCompare, hTargets, hCount, hCompares,
    hTargets', hCovers.map, hCovers'.map⟩
  rw [redirect_operands, hOperands, List.map_cons, List.map_append]
  rfl

theorem checkedOp_eq (hOp : m.op o = .ok op) : m.checkedOp o = pure op := by
  unfold checkedOp
  rw [hOp]
  rfl

/- An operation is looked up in two modules. -/
theorem answers_checkedOp_imp {f g : Operation → Check α}
    (hOp : m.op o = .ok op) (hOp' : m'.op o = .ok op')
    (hNext : Answers (f op) a → Answers (g op') a) (hAnswers : Answers (m.checkedOp o >>= f) a) :
    Answers (m'.checkedOp o >>= g) a := by
  rw [checkedOp_eq hOp] at hAnswers
  rw [checkedOp_eq hOp']
  exact hNext hAnswers

/-
  An operation of two modules that has other operands of the
  same types in the second.
-/
structure SameShape (σ : ValueId → ValueId) (m m' : Module) (o : OpId) (op : Operation) : Prop where
  before : m.op o = .ok op
  after : m'.op o = .ok (op.redirect σ)
  operands : ∀ v ∈ op.operands, m'.typeOf (σ v) = m.typeOf v
  results : ∀ v ∈ op.results, m'.typeOf v = m.typeOf v

namespace SameShape

----
-- Complaints
----

section

variable (hShape : SameShape σ m m' o op)
include hShape

theorem checkedOp_before : m.checkedOp o = pure op := checkedOp_eq hShape.before

theorem checkedOp_after : m'.checkedOp o = pure (op.redirect σ) := checkedOp_eq hShape.after

theorem look {f g : Operation → Check α} {a : α}
    (hNext : Answers (f op) a → Answers (g (op.redirect σ)) a) :
    Answers (m.checkedOp o >>= f) a → Answers (m'.checkedOp o >>= g) a :=
  answers_checkedOp_imp hShape.before hShape.after hNext

theorem reject_eq (message : String) : (m'.reject o message : Check α) = m.reject o message := by
  unfold reject
  rw [hShape.before, hShape.after]
  rfl

theorem ensure_eq (cond : Bool) (message : String) :
    m'.ensure o cond message = m.ensure o cond message := by
  unfold ensure
  rw [hShape.reject_eq]

theorem verifyCounts_eq (operands results : Nat) : m'.verifyCounts o operands results =
      m.verifyCounts o operands results := by
  unfold verifyCounts
  simp only [hShape.checkedOp_before, hShape.checkedOp_after,
    pure_bind, hShape.ensure_eq, redirect_operands,
    redirect_results, List.length_map]

----
-- Types
----

theorem checkedType_eq (hOperand : v ∈ op.operands) :
    m'.checkedType (σ v) = m.checkedType v := by
  unfold checkedType
  rw [hShape.operands v hOperand]

theorem operandType_eq (i : Nat) : m'.operandType (op.redirect σ) i = m.operandType op i := by
  unfold operandType entry
  rw [redirect_operands, List.getElem?_map]
  cases hAt : op.operands[i]? with
  | none => rfl
  | some v => exact hShape.checkedType_eq (List.mem_of_getElem? hAt)

theorem resultType_eq : m'.resultType (op.redirect σ) = m.resultType op := by
  unfold resultType result
  rw [redirect_results]
  split
  · rename_i v hResult
    have hListed : v ∈ op.results := by simp [hResult]
    change m'.checkedType v = m.checkedType v
    unfold checkedType
    rw [hShape.results v hListed]
  · rfl

theorem typeAttr_eq (name : String) : m'.typeAttr o name = m.typeAttr o name := by
  unfold typeAttr
  simp only [hShape.checkedOp_before, hShape.checkedOp_after,
    pure_bind, redirect_attr?, hShape.reject_eq]

theorem operandTypes_eq (hOperands : ∀ v ∈ vs, v ∈ op.operands) :
    m'.checkedTypes (vs.map σ) = m.checkedTypes vs := by
  unfold checkedTypes
  rw [Reduces.typesOf_map_eq fun v hIn => hShape.operands v (hOperands v hIn)]

theorem resultTypes_eq : m'.checkedTypes op.results = m.checkedTypes op.results := by
  unfold checkedTypes
  rw [Reduces.typesOf_eq hShape.results]

end

theorem hasType_map_eq (hTypes : ∀ w ∈ v, m'.typeOf (f w) = m.typeOf w)
    (t : Ty) : m'.hasType (v.map f) t = m.hasType v t := by
  cases v with
  | none => rfl
  | some w => simp only [Option.map_some, hasType, checkedType, hTypes w rfl]

theorem hasType_eq (hTypes : ∀ w ∈ v, m'.typeOf w = m.typeOf w) (t : Ty) :
    m'.hasType v t = m.hasType v t := by simpa using hasType_map_eq (f := fun w => w) hTypes t

----
-- Values
----

section

variable (hShape : SameShape σ m m' o op)
include hShape

theorem verifyExtents_eq (hOperands : ∀ v ∈ vs, v ∈ op.operands) :
    verifyExtents records m' o (vs.map σ) = verifyExtents records m o vs := by
  induction vs with
  | nil => rfl
  | cons v vs ih =>
    have hRest := ih fun w hIn => hOperands w (.tail v hIn)
    simp only [List.map_cons, verifyExtents, hShape.ensure_eq,
      hShape.checkedType_eq (hOperands v (.head _)), hRest]

theorem verifyAlloc_eq : verifyAlloc records m' o = verifyAlloc records m o := by
  have hExtents : ∀ n, verifyExtents records m' o ((op.operands.map σ).drop n) =
        verifyExtents records m o (op.operands.drop n) := by
    intro n
    rw [← List.map_drop]
    exact hShape.verifyExtents_eq fun v hIn => List.mem_of_mem_drop hIn
  unfold verifyAlloc
  simp only [hShape.checkedOp_before, hShape.checkedOp_after,
    pure_bind, hShape.resultType_eq, hShape.typeAttr_eq,
    hShape.reject_eq, hShape.ensure_eq, hExtents,
    allocSizes?_redirect, redirect_kind,
    redirect_operands, redirect_results, List.length_map]
  rfl

theorem verifyKind_eq {kind : OpKind} (hAlone : kind.alone = true) :
    verifyKind records m' o kind = verifyKind records m o kind := by
  cases kind
  all_goals first
    | exact absurd hAlone (by decide)
    | simp only [verifyKind, verifyConstant, verifyFreeMem, verifyLoad, verifyStore, verifyBinary,
        verifyCmp, verifyEmbox, verifyBoxAddr, verifyGenTypeDesc, hShape.verifyCounts_eq,
        hShape.checkedOp_before, hShape.checkedOp_after, pure_bind, hShape.operandType_eq,
        hShape.resultType_eq, hShape.typeAttr_eq, hShape.reject_eq, hShape.ensure_eq,
        redirect_kind, redirect_attr?]
  all_goals rfl

/- The bounds of loops and the values that they carry. -/
theorem verifyBounds_eq (hOperands : ∀ v ∈ vs, v ∈ op.operands) :
    verifyBounds records m' o (vs.map σ) = verifyBounds records m o vs := by
  induction vs with
  | nil => rfl
  | cons v vs ih =>
    have hRest := ih fun w hIn => hOperands w (.tail v hIn)
    simp only [List.map_cons, verifyBounds, hShape.ensure_eq,
      hShape.checkedType_eq (hOperands v (.head _)), hRest]

theorem verifyCarried_eq (hResults : ∀ v ∈ rs, v ∈ op.results)
    (hInits : ∀ v ∈ is, v ∈ op.operands) (hArgs : ∀ v ∈ as, m'.typeOf v = m.typeOf v) :
    m'.verifyCarried o rs (is.map σ) as = m.verifyCarried o rs is as := by
  induction rs generalizing is as with
  | nil => cases is <;> rfl
  | cons r rs ih =>
    rcases is with _ | ⟨i, is⟩
    · rfl
    · rcases as with _ | ⟨a, as⟩
      · rfl
      · rcases List.forall_mem_cons.mp hResults with ⟨hR, hRs⟩
        rcases List.forall_mem_cons.mp hInits with ⟨hI, hIs⟩
        rcases List.forall_mem_cons.mp hArgs with ⟨hA, hAs⟩
        have hResult : m'.checkedType r = m.checkedType r := by
          unfold checkedType
          rw [hShape.results r hR]
        have hArg : m'.checkedType a = m.checkedType a := by
          unfold checkedType
          rw [hA]
        simp only [List.map_cons, verifyCarried, hResult, hArg,
          hShape.checkedType_eq hI, hShape.ensure_eq, ih hRs hIs hAs]

theorem verifyCaseOperands_eq : verifyCaseOperands records m' o tags (lists.map (List.map σ)) =
      verifyCaseOperands records m o tags lists := by
  induction tags generalizing lists with
  | nil => cases lists <;> rfl
  | cons tag tags ih =>
    rcases lists with _ | ⟨vs, lists⟩
    · rfl
    · simp only [List.map_cons, verifyCaseOperands, List.length_map, hShape.ensure_eq, ih]

theorem verifyLinkage_eq : verifyLinkage records m' o (op.redirect σ) =
      verifyLinkage records m o op := by
  unfold verifyLinkage
  simp only [redirect_attr?, hShape.ensure_eq]

end

end SameShape

end Module

end FortranIR
