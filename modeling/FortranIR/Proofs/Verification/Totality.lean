import FortranIR.Proofs.Nesting
import FortranIR.Proofs.Verification.Parts

/-
  This file proves for which modules verification ends with an
  answer or a complaint, and not with a fault.

  In modules that builders construct step by step, everything that
  is looked up is there. What is left are the offsets of branches,
  which are summed before they are compared with the operands.

  Main declarations:
    * `Returns`
    * `Module.TypedBuilt.verify_returns`
    * `Module.TypedBuilt.verify_negativeOffset`
-/

namespace FortranIR

variable {vs operands : List ValueId} {v : ValueId} {o : OpId}
variable {message : String} {β α : Type} {m : Module}
variable {op : Operation} {sizes : List Nat} {fits : Ty → Bool}
variable {t : Ty} {successors : List BlockId} {x : Except Fault α}
variable {f : Ty → Check α}

----
-- Checks without faults
----

/- There is no fault. -/
def Returns {ε α : Type} (x : ExceptT ε (Except Fault) α) : Prop := ∃ r, x.run = .ok r

/- The values exist. -/
def Module.HasValues (m : Module) (vs : List ValueId) : Prop :=
  ∀ v ∈ vs, ∃ info, m.value v = .ok info

namespace Returns

variable {ε : Type}

theorem pure (a : α) : Returns (Pure.pure a : ExceptT ε (Except Fault) α) := ⟨_, rfl⟩

theorem bind {x : ExceptT ε (Except Fault) α} {f : α → ExceptT ε (Except Fault) β}
    (hFirst : Returns x) (hNext : ∀ a, Answers x a → Returns (f a)) : Returns (x >>= f) := by
  rcases x with fault | (complaint | a)
  · rcases hFirst with ⟨r, hRun⟩
    cases hRun
  · exact ⟨.error complaint, rfl⟩
  · exact hNext a rfl

/- A lookup that another check follows. -/
theorem read {f : α → ExceptT ε (Except Fault) β} (hFound : ∃ a, x = .ok a)
    (hNext : ∀ a, x = .ok a → Returns (f a)) : Returns (liftM x >>= f) := by
  rcases hFound with ⟨a, rfl⟩
  exact hNext a rfl

theorem found {f : α → ExceptT ε (Except Fault) β} (hFound : x = .ok a)
    (hNext : Returns (f a)) : Returns (liftM x >>= f) := by
  subst hFound
  exact hNext

theorem forM {xs : List α} {f : α → Check Unit} (hEach : ∀ x ∈ xs, Returns (f x)) :
    Returns (xs.forM f) :=
  forM_of_each (.pure ()) (fun _ _ hX hY => .bind hX fun _ _ => hY) hEach

theorem type {f : Ty → Check β} (hValue : ∃ info, m.value v = .ok info)
    (hNext : ∀ t, Returns (f t)) : Returns (m.checkedType v >>= f) := by
  rcases hValue with ⟨info, hInfo⟩
  exact .found (by rw [Module.typeOf, hInfo]; rfl) (hNext info.type)

theorem allTypes {f : List Ty → Check β} (hValues : m.HasValues vs)
    (hNext : ∀ ts, Returns (f ts)) : Returns (m.checkedTypes vs >>= f) := by
  refine .read (mapM_returns fun v hMember => ?_) fun ts _ => hNext ts
  rcases hValues v hMember with ⟨info, hInfo⟩
  exact ⟨info.type, by rw [Module.typeOf, hInfo]; rfl⟩

theorem hasType {v : Option ValueId} {f : Bool → Check α} (hValue : m.HasValues v.toList)
    (hNext : ∀ fits, (fits = true → v ≠ none) → Returns (f fits)) :
    Returns (m.hasType v t >>= f) := by
  cases v with
  | none => exact hNext false nofun
  | some w =>
    unfold Module.hasType
    rw [bind_assoc]
    exact .type (hValue w (.head _)) fun found => hNext _ nofun

end Returns

namespace Module

theorem except_bind_returns {f : α → Except Fault β} (hFirst : ∃ a, x = .ok a)
    (hNext : ∀ a, x = .ok a → ∃ b, f a = .ok b) : ∃ b, (x >>= f) = .ok b := by
  rcases hFirst with ⟨a, rfl⟩
  exact hNext a rfl

/-
  The operation that a check is about exists, and so does what
  belongs to it.
-/
structure Known (m : Module) (o : OpId) (op : Operation) : Prop where
  found : m.op o = .ok op
  operands : m.HasValues op.operands
  results : m.HasValues op.results
  successors : ∀ b ∈ op.successors, ∃ info, m.block b = .ok info
  regions : ∀ r ∈ op.regions, ∃ region, m.region r = .ok region

namespace Known

variable (hKnown : m.Known o op)
include hKnown

theorem reject (message : String) : Returns (m.reject o message : Check α) :=
  .found hKnown.found ⟨_, rfl⟩

theorem ensured (cond : Bool) (message : String) : Returns (m.ensure o cond message) := by
  unfold Module.ensure
  split
  · exact .pure ()
  · exact hKnown.reject message

theorem ensure {cond : Bool} {f : Unit → Check α} (hNext : cond = true → Returns (f ())) :
    Returns (m.ensure o cond message >>= f) :=
  .bind (hKnown.ensured cond message) fun _ hAnswers => hNext (answers_ensure.mp hAnswers)

theorem look {f : Operation → Check α} (hNext : Returns (f op)) : Returns (m.checkedOp o >>= f) :=
  .found hKnown.found hNext

theorem counted (operands results : Nat) : Returns (m.verifyCounts o operands results) :=
  hKnown.look (hKnown.ensure fun _ => hKnown.ensured _ _)

theorem counts {operands results : Nat} {f : Unit → Check α} (hNext :
      op.operands.length = operands → op.results.length = results → Returns (f ())) :
    Returns (m.verifyCounts o operands results >>= f) := by
  refine .bind (hKnown.counted operands results) ?_
  intro _ hAnswers
  rcases (verifyCounts_answers hKnown.found).mp hAnswers with ⟨hOperands, hResults⟩
  exact hNext hOperands hResults

theorem operandType (hBelow : i < op.operands.length) (hNext : ∀ t, Returns (f t)) :
    Returns (m.operandType op i >>= f) := by
  have hAt := List.getElem?_eq_getElem hBelow
  unfold Module.operandType
  rw [bind_assoc]
  refine .found (orElse_eq_ok_iff.mpr hAt) ?_
  exact .type (hKnown.operands _ (List.mem_of_getElem? hAt)) hNext

theorem resultType (hOne : op.results.length = 1) (hNext : ∀ t, Returns (f t)) :
    Returns (m.resultType op >>= f) := by
  rcases List.length_eq_one_iff.mp hOne with ⟨v, hResults⟩
  unfold Module.resultType
  rw [bind_assoc]
  refine .found (a := v) (by rw [Operation.result, hResults]) ?_
  exact .type (hKnown.results v (by simp [hResults])) hNext

theorem typeAttr (hNext : ∀ t, Returns (f t)) : Returns (m.typeAttr o name >>= f) := by
  refine .bind (hKnown.look ?_) fun t _ => hNext t
  split
  · exact .pure _
  · exact hKnown.reject _

theorem rejected {f : α → Check β} : Returns (m.reject o message >>= f) :=
  .bind (hKnown.reject message) fun _ hAnswers => absurd hAnswers not_answers_reject

----
-- Operations with values only
----

theorem verifyConstant : Returns (Module.verifyConstant records m o) := by
  refine hKnown.counts fun _ hResults => hKnown.look ?_
  refine hKnown.resultType hResults fun t => ?_
  split
  · exact hKnown.reject _
  · exact hKnown.ensured _ _

/- Some values are asked for their types, one after the other. -/
theorem eachType (check : List ValueId → Check Unit) {message : Ty → String}
    (hNil : check [] = pure ()) (hCons : ∀ v vs, check (v :: vs) = do
        let t ← m.checkedType v
        m.ensure o (fits t) (message t)
        check vs) (hValues : m.HasValues vs) : Returns (check vs) := by
  induction vs with
  | nil => exact hNil ▸ Returns.pure ()
  | cons v vs ih =>
    rcases List.forall_mem_cons.mp hValues with ⟨hFirst, hRest⟩
    rw [hCons]
    exact .type hFirst fun t => hKnown.ensure fun _ => ih hRest

theorem verifyAlloc : Returns (Module.verifyAlloc records m o) := by
  refine hKnown.look (hKnown.ensure fun hOne => ?_)
  refine hKnown.typeAttr fun t => ?_
  split
  · exact hKnown.reject _
  · refine hKnown.ensure fun _ => ?_
    refine .bind (hKnown.eachType (verifyExtents records m o) rfl
      (fun _ _ => rfl) fun v hMember => hKnown.operands v
        (List.mem_of_mem_drop hMember)) fun _ _ => ?_
    refine hKnown.ensure fun _ => ?_
    cases t.recordComplaint? records with
    | some complaint => exact hKnown.rejected
    | none =>
      refine hKnown.ensure fun _ => hKnown.ensure fun _ => ?_
      exact hKnown.resultType (beq_iff_eq.mp hOne) fun found => hKnown.ensured _ _

theorem verifyFreeMem : Returns (Module.verifyFreeMem records m o) := by
  refine hKnown.counts fun hOperands _ => hKnown.look ?_
  exact hKnown.operandType (by omega) fun t => hKnown.ensured _ _

/- A check of the operand, and one of the result. -/
theorem converted {agree : Ty → Ty → Bool} {message : Ty → String} {mismatch : Ty → Ty → String} :
    Returns (do
      m.verifyCounts o 1 1
      let op ← m.checkedOp o
      let t ← m.operandType op 0
      m.ensure o (fits t) (message t)
      let found ← m.resultType op
      m.ensure o (agree t found) (mismatch t found)) := by
  refine hKnown.counts fun hOperands hResults => hKnown.look ?_
  refine hKnown.operandType (by omega) fun t => ?_
  refine hKnown.ensure fun _ => ?_
  exact hKnown.resultType hResults fun found => hKnown.ensured _ _

theorem verifyStore : Returns (Module.verifyStore records m o) := by
  refine hKnown.counts fun hOperands _ => hKnown.look ?_
  refine hKnown.operandType (by omega) fun value => ?_
  refine hKnown.operandType (by omega) fun memref => ?_
  exact hKnown.ensure fun _ => hKnown.ensured _ _

theorem verifyBinary : Returns (Module.verifyBinary records m o) := by
  refine hKnown.counts fun hOperands hResults => hKnown.look ?_
  refine hKnown.operandType (by omega) fun lhs => ?_
  refine hKnown.operandType (by omega) fun rhs => ?_
  refine hKnown.resultType hResults fun found => ?_
  exact hKnown.ensure fun _ => hKnown.ensured _ _

theorem verifyCmp : Returns (Module.verifyCmp records m o) := by
  refine hKnown.counts fun hOperands hResults => hKnown.look ?_
  refine hKnown.operandType (by omega) fun lhs => ?_
  refine hKnown.operandType (by omega) fun rhs => ?_
  refine hKnown.ensure fun _ => ?_
  refine hKnown.resultType hResults fun found => ?_
  refine hKnown.ensure fun _ => hKnown.ensure fun _ => ?_
  exact hKnown.ensured _ _

theorem verifyGenTypeDesc : Returns (Module.verifyGenTypeDesc records m o) := by
  refine hKnown.counts fun _ hResults => ?_
  refine hKnown.typeAttr fun inType => hKnown.look ?_
  exact hKnown.resultType hResults fun found => hKnown.ensured _ _

theorem verifyOperands (hValues : m.HasValues vs) : Returns (m.verifyOperands o vs) := by
  induction vs with
  | nil => exact .pure ()
  | cons v vs ih =>
    rcases List.forall_mem_cons.mp hValues with ⟨hFirst, hRest⟩
    exact .read hFirst fun info _ => hKnown.ensure fun _ => ih hRest

end Known

----
-- Modules in which everything is found
----

/-
  Whatever an operation, a block, a region or the module level
  refers to exists.
-/
structure Readable (m : Module) : Prop where
  known : ∀ o op, m.op o = .ok op → m.Known o op
  blocks : ∀ r region, m.region r = .ok region → ∀ b ∈ region.blocks, ∃ os, m.blockOps b = .ok os
  around : ∀ b info, m.block b = .ok info → m.HasValues info.args ∧
      ∃ region op, m.region info.region = .ok region ∧ m.op region.parent = .ok op
  ops : ∀ b os, m.blockOps b = .ok os → ∀ o ∈ os, ∃ op, m.op o = .ok op
  places : ∀ o b, m.parentBlock? o = some b → ∃ os, m.blockOps b = .ok os
  top : ∀ o ∈ m.top, ∃ op, m.op o = .ok op
  globals : ∀ o op, m.op o = .ok op → op.kind = .global → op.regions ≠ []

namespace Readable

theorem block_of_blockOps (hOps : ∃ os, m.blockOps b = .ok os) : ∃ info, m.block b = .ok info := by
  rcases hOps with ⟨os, hOs⟩
  rcases blockOps_eq_ok_iff.mp hOs with ⟨info, -, hInfo, -⟩
  exact ⟨info, block_eq_ok_iff.mpr hInfo⟩

variable (hReadable : m.Readable)
include hReadable

theorem terminator? (hOps : ∃ os, m.blockOps b = .ok os) : ∃ last, m.terminator? b = .ok last := by
  refine except_bind_returns hOps fun os hOs => ?_
  split
  · exact ⟨_, rfl⟩
  · rename_i o hLast
    refine except_bind_returns (hReadable.ops b os hOs o
      (List.mem_of_getLast? hLast)) fun op _ => ?_
    split
    · exact ⟨_, rfl⟩
    · exact ⟨_, rfl⟩

/- The operation around one is looked up. -/
theorem parent (o : OpId) {f : Option OpId → Check α} (hNone : Returns (f none))
    (hSome : ∀ p op, m.Known p op → Returns (f (some p))) :
    Returns (liftM (m.parentOp? o) >>= f) := by
  unfold Module.parentOp?
  cases hPlace : m.parentBlock? o with
  | none => exact hNone
  | some b =>
    rcases block_of_blockOps (hReadable.places o b hPlace) with ⟨info, hInfo⟩
    rcases (hReadable.around b info hInfo).2 with ⟨region, op, hRegion, hOp⟩
    have hOwner : m.blockOwner b = .ok region.parent := bind_eq_ok_iff.mpr ⟨info, hInfo,
        bind_eq_ok_iff.mpr ⟨region, hRegion, rfl⟩⟩
    dsimp only
    rw [hOwner]
    exact hSome _ op (hReadable.known _ op hOp)

/- An operation of the module level is looked up by its symbol. -/
theorem symbol (name : String) {f : Option OpId → Check α} (hNone : Returns (f none))
    (hSome : ∀ p op, m.Known p op → Returns (f (some p))) :
    Returns (liftM (m.lookupSymbol name) >>= f) := by
  have hTop := hReadable.top
  unfold Module.lookupSymbol
  generalize m.top = top at hTop ⊢
  induction top with
  | nil => exact hNone
  | cons o rest ih =>
    rcases List.forall_mem_cons.mp hTop with ⟨⟨op, hOp⟩, hRest⟩
    unfold Module.findSymbol
    rw [hOp]
    change Returns (liftM (if op.symName? = some name then _ else _) >>= f)
    split
    · exact hSome o op (hReadable.known o op hOp)
    · exact ih hRest

theorem verifySymbols
    (hFound : ∀ o ∈ os, ∃ op, m.op o = .ok op) : Returns (m.verifySymbols seen os) := by
  induction os generalizing seen with
  | nil => exact .pure ()
  | cons o os ih =>
    rcases List.forall_mem_cons.mp hFound with ⟨⟨op, hOp⟩, hRest⟩
    have hKnown := hReadable.known o op hOp
    refine hKnown.look ?_
    split
    · exact ih hRest
    · exact hKnown.ensure fun _ => ih hRest

----
-- Operations with a parent or a symbol
----

variable (hKnown : m.Known o op)
include hKnown

theorem verifyPlacement : Returns (m.verifyPlacement o) := by
  refine hKnown.look ?_
  split
  · exact hKnown.ensured _ _
  · rename_i b hPlace
    refine hKnown.ensure fun _ => ?_
    split
    · exact .read (hReadable.terminator?
        (hReadable.places o b hPlace)) fun last _ => hKnown.ensured _ _
    · exact .pure _

theorem verifyCall : Returns (m.verifyCall o) := by
  refine hKnown.look ?_
  split
  · exact hKnown.reject _
  · refine hReadable.symbol _ (.pure ()) fun p target hTarget => ?_
    refine hTarget.look ?_
    split
    · refine hTarget.typeAttr fun t => ?_
      refine .allTypes hKnown.operands fun args => ?_
      refine .allTypes hKnown.results fun rets => ?_
      exact hKnown.ensure fun _ => hKnown.ensured _ _
    · exact .pure ()

theorem verifyAddressOf : Returns (Module.verifyAddressOf records m o) := by
  refine hKnown.counts fun _ hResults => hKnown.look ?_
  split
  · exact hKnown.reject _
  · refine hKnown.resultType hResults fun type => ?_
    refine hKnown.ensure fun _ => ?_
    refine hReadable.symbol _ (.pure ()) fun p target hTarget => ?_
    exact hTarget.typeAttr fun t => hKnown.ensured _ _

theorem verifyResult : Returns (m.verifyResult o) := by
  refine hReadable.parent o (hKnown.reject _) fun p outer hOuter => ?_
  refine hOuter.look (hKnown.ensure fun _ => hKnown.look ?_)
  refine .allTypes hKnown.operands fun operands => ?_
  refine .allTypes hOuter.results fun results => ?_
  exact hKnown.ensure fun _ => hKnown.ensured _ _

theorem verifyReturn : Returns (m.verifyReturn o) := by
  refine hReadable.parent o (hKnown.reject _) fun p outer hOuter => ?_
  refine hOuter.look ?_
  split
  · refine hOuter.typeAttr fun t => hKnown.look ?_
    exact .allTypes hKnown.operands fun values => hKnown.ensured _ _
  · exact hKnown.reject _

theorem verifyHasValue : Returns (m.verifyHasValue o) := by
  refine hKnown.counts fun _ _ => ?_
  simp only [pure_bind]
  refine hReadable.parent o (hKnown.ensured _ _) ?_
  exact fun p outer hOuter => hOuter.look (hKnown.ensured _ _)

theorem verifyDtEntry : Returns (m.verifyDtEntry o) := by
  refine hKnown.look ?_
  refine hKnown.ensure fun _ => hKnown.ensure fun _ => ?_
  simp only [pure_bind]
  refine hReadable.parent o (hKnown.ensured _ _) ?_
  exact fun p outer hOuter => hOuter.look (hKnown.ensured _ _)

----
-- Operations with regions
----

theorem regionBlocks (hListed : r ∈ op.regions) {f : List BlockId → Check α} (hNext :
      ∀ bs, (∀ b ∈ bs, ∃ os, m.blockOps b = .ok os) → Returns (f bs)) :
    Returns (liftM (m.regionBlocks r) >>= f) := by
  rcases hKnown.regions r hListed with ⟨region, hRegion⟩
  exact .found (bind_eq_ok_iff.mpr ⟨region, hRegion, rfl⟩)
    (hNext _ (hReadable.blocks r region hRegion))

theorem verifyTerminated : Returns (m.verifyTerminated o) := by
  refine hKnown.look (.forM fun r hListed => ?_)
  refine hReadable.regionBlocks hKnown hListed fun bs hAll => ?_
  induction bs with
  | nil => exact .pure ()
  | cons b bs ih =>
    rcases List.forall_mem_cons.mp hAll with ⟨hFirst, hRest⟩
    refine .read (hReadable.terminator? hFirst) fun last _ => ?_
    exact hKnown.ensure fun _ => ih hRest

theorem verifyDispatchTable : Returns (m.verifyDispatchTable o) := by
  refine hKnown.look (hKnown.ensure fun _ => ?_)
  refine .forM fun r hListed => ?_
  refine hReadable.regionBlocks hKnown hListed fun bs hAll => ?_
  refine .forM fun b hMember => ?_
  refine .read (hAll b hMember) fun os hOps => ?_
  refine .forM fun inner hInner => ?_
  rcases hReadable.ops b os hOps inner hInner with ⟨entry, hEntry⟩
  exact (hReadable.known inner entry hEntry).look (hKnown.ensured _ _)

theorem verifyIf : Returns (m.verifyIf o) := by
  refine hKnown.look ?_
  extract_lets jump
  have hRest : ∀ condition, Returns (jump condition) := by
    intro condition
    refine hKnown.ensure fun _ => ?_
    split
    · rename_i first second hRegions
      refine hReadable.regionBlocks hKnown (r := first)
        (by simp [hRegions]) fun thenBlocks hThen => ?_
      refine hReadable.regionBlocks hKnown (r := second)
        (by simp [hRegions]) fun elseBlocks hElse => ?_
      refine hKnown.ensure fun _ => hKnown.ensure fun _ => hKnown.ensure fun _ => ?_
      refine .bind (.forM fun b hMember => ?_)
        fun _ _ => hReadable.verifyTerminated hKnown
      have hOps := (List.mem_append.mp hMember).elim (hThen b) (hElse b)
      exact .read (block_of_blockOps hOps) fun info _ => hKnown.ensured _ _
    · exact hKnown.reject _
  split
  · rename_i c hOperands
    exact .type (hKnown.operands c (by simp [hOperands])) fun t => hRest _
  · exact hRest false

/- The first block of a region, if it has one. -/
theorem entryBlock? (i : Nat) : ∃ b, m.entryBlock? o i = .ok b ∧
      ∀ c, b = some c → ∃ info, m.block c = .ok info := by
  unfold Module.entryBlock?
  simp only [hKnown.found, bind, Except.bind]
  cases hAt : op.regions[i]? with
  | none => exact ⟨none, rfl, nofun⟩
  | some r =>
    rcases hKnown.regions r (List.mem_of_getElem? hAt) with ⟨region, hRegion⟩
    simp only [hRegion]
    refine ⟨region.firstBlock?, rfl, fun c hFirst => ?_⟩
    exact block_of_blockOps (hReadable.blocks r region hRegion c (List.mem_of_head? hFirst))

theorem verifyFunc : Returns (Module.verifyFunc records m o) := by
  refine hKnown.look (hKnown.ensure fun _ => ?_)
  refine hKnown.typeAttr fun t => ?_
  split
  · exact hKnown.reject _
  · have hLast := hReadable.verifyTerminated hKnown
    rcases hReadable.entryBlock? hKnown 0 with ⟨b, hEntry, hBlock⟩
    refine .found hEntry ?_
    cases b with
    | none => exact hLast
    | some b =>
      refine .read (hBlock b rfl) fun info hInfo => ?_
      refine .allTypes (hReadable.around b info hInfo).1 fun args => ?_
      exact hKnown.ensure fun _ => hLast

omit hKnown in
theorem initializerValue? (hOps : ∃ os, m.blockOps b = .ok os) :
    ∃ v, m.initializerValue? b = .ok v ∧ m.HasValues v.toList := by
  rcases hReadable.terminator? hOps with ⟨last, hLast⟩
  unfold Module.initializerValue?
  rw [hLast]
  cases last with
  | none => exact ⟨none, rfl, nofun⟩
  | some p =>
    rcases terminator?_eq_some.mp hLast with ⟨os, op, -, -, hOp, -⟩
    dsimp only [pure_bind, bind, Except.bind]
    rw [hOp]
    dsimp only
    split
    · rename_i v _ hOperands
      refine ⟨some v, rfl, fun w hMember => ?_⟩
      exact (hReadable.known p op hOp).operands w (by simpa [hOperands] using hMember)
    · exact ⟨none, rfl, nofun⟩

theorem verifyGlobal (hRegion : op.regions ≠ []) : Returns (Module.verifyGlobal records m o) := by
  refine hKnown.look (hKnown.ensure fun _ => ?_)
  refine hKnown.typeAttr fun t => ?_
  have hLinkage : Returns (verifyLinkage records m o op) := by
    unfold verifyLinkage
    split
    · exact .pure _
    · exact hKnown.ensured _ _
  rcases List.exists_cons_of_ne_nil hRegion with ⟨r, rs, hRegions⟩
  cases t.recordComplaint? records with
  | some complaint => exact hKnown.rejected
  | none =>
  refine .bind hLinkage fun _ _ => ?_
  refine .found (a := r) (by rw [hRegions]; rfl) ?_
  refine hReadable.regionBlocks hKnown (r := r) (by simp [hRegions]) fun bs hAll => ?_
  cases bs with
  | nil => exact .pure _
  | cons b bs =>
    refine hKnown.ensure fun _ => ?_
    rcases hReadable.initializerValue? (hAll b (.head _)) with ⟨v, hValue, hExists⟩
    refine .found hValue ?_
    cases v with
    | none => exact hKnown.reject _
    | some v => exact .type (hExists v (.head _)) fun found => hKnown.ensured _ _

----
-- Loops
----

/- The body of a loop has arguments that exist. -/
theorem loopBody : ∃ body args, m.loopBody op = .ok (body, args) ∧ m.HasValues args := by
  unfold Module.loopBody
  cases hRegions : op.regions with
  | nil => exact ⟨none, [], rfl, nofun⟩
  | cons r rs =>
    rcases hKnown.regions r (by simp [hRegions]) with ⟨region, hRegion⟩
    simp only [hRegion, bind, Except.bind]
    cases hFirst : region.firstBlock? with
    | none => exact ⟨none, [], rfl, nofun⟩
    | some b =>
      rcases block_of_blockOps (hReadable.blocks r region
        hRegion b (List.mem_of_head? hFirst)) with ⟨info, hInfo⟩
      simp only [hInfo]
      exact ⟨some b, info.args, rfl, (hReadable.around b info hInfo).1⟩

theorem loopParts (hKind : op.kind.isLoop = true) (hFixed :
      (if op.kind = .doLoop then 3 else 4) ≤ op.operands.length) :
    ∃ parts, m.loopParts o = .ok parts ∧ m.HasValues parts.args := by
  rcases hReadable.loopBody hKnown with ⟨body, args, hBody, hArgs⟩
  unfold Module.loopParts
  rw [hKnown.found]
  simp only [bind, Except.bind, hBody]
  split
  · exact ⟨_, rfl, hArgs⟩
  · exact ⟨_, rfl, hArgs⟩
  · rename_i hDo hShort
    rw [if_pos hDo] at hFixed
    match hOperands : op.operands, hFixed with
    | a :: b :: c :: vs, _ => exact (hShort a b c vs hOperands).elim
  · rename_i hWhile hShort
    rw [if_neg (by simp [hWhile])] at hFixed
    match hOperands : op.operands, hFixed with
    | a :: b :: c :: d :: vs, _ => exact (hShort a b c d vs hOperands).elim
  · rename_i hDo hWhile _ _
    exact ((OpKind.isLoop_iff.mp hKind).elim hDo hWhile).elim

omit hReadable in
theorem verifyCarried (hResults : m.HasValues rs)
    (hInits : m.HasValues is) (hArgs : m.HasValues as) : Returns (m.verifyCarried o rs is as) := by
  fun_induction Module.verifyCarried m o rs is as with
  | case1 r rs i is a as ih =>
    rcases List.forall_mem_cons.mp hResults with ⟨hResult, hResults⟩
    rcases List.forall_mem_cons.mp hInits with ⟨hInit, hInits⟩
    rcases List.forall_mem_cons.mp hArgs with ⟨hArg, hArgs⟩
    refine .type hResult fun _ => .type hInit fun _ => ?_
    exact .type hArg fun _ => hKnown.ensure fun _ => ih hResults hInits hArgs
  | case2 => exact .pure ()

theorem verifyLoop (hKind : op.kind.isLoop = true) : Returns (Module.verifyLoop records m o) := by
  refine hKnown.look (hKnown.ensure fun hFixed => ?_)
  refine hKnown.ensure fun hOne => ?_
  rcases List.length_eq_one_iff.mp (beq_iff_eq.mp hOne) with ⟨r, hRegions⟩
  refine .found (a := r) (by rw [hRegions]; rfl) ?_
  refine hReadable.regionBlocks hKnown (r := r) (by simp [hRegions])
    fun bs _ => hKnown.ensure fun _ => ?_
  rcases hReadable.loopParts hKnown hKind (of_decide_eq_true hFixed) with ⟨parts, hParts, hArgs⟩
  rcases loopParts_eq_ok hKnown.found hParts with ⟨hOperands, -, -⟩
  have hFixed : m.HasValues (parts.lower :: parts.upper ::
      parts.step :: (parts.iterateIn.toList ++ parts.inits)) := hOperands ▸ hKnown.operands
  refine .found hParts ?_
  refine .bind (hKnown.eachType (verifyBounds records m o) rfl
    (fun _ _ => rfl) fun v hMember => hFixed v ?_) fun _ _ => ?_
  · simp only [List.mem_cons, List.not_mem_nil, or_false] at hMember ⊢
    tauto
  refine .hasType (fun v hMember => hArgs v ?_) fun _ _ => hKnown.ensure fun _ => ?_
  · exact List.mem_of_mem_head? (Option.mem_toList.mp hMember)
  extract_lets jump
  have hRest : ∀ rs, m.HasValues rs → Returns (jump rs) := by
    intro rs hResults
    refine hKnown.ensure fun _ => .bind (verifyCarried hKnown
      hResults ?_ ?_) fun _ _ => hReadable.verifyTerminated hKnown
    · exact fun v hMember => hFixed v (by simp [hMember])
    · exact fun v hMember => hArgs v (List.mem_of_mem_drop hMember)
  cases hIn : parts.iterateIn with
  | none => exact hRest _ hKnown.results
  | some ok =>
    refine .type (hFixed ok (by simp [hIn])) fun _ => hKnown.ensure fun _ => ?_
    refine .hasType (fun v hMember => hArgs v
      (List.mem_of_getElem? (Option.mem_toList.mp hMember))) fun _ _ => hKnown.ensure fun _ => ?_
    refine .hasType (fun v hMember => hKnown.results v
      (List.mem_of_mem_head? (Option.mem_toList.mp hMember))) fun _ _ => hKnown.ensure fun _ => ?_
    exact hRest _ fun v hMember => hKnown.results v (List.mem_of_mem_drop hMember)

end Readable

end Module

----
-- Branches
----

/-
  The offsets of a branch can be summed. Those of a branch on a
  condition are not negative if their sum is the one expected.
-/
def Operation.offsetsFit (op : Operation) : Bool := if op.kind = .condBr then
    match (op.attr? "target_operand_offsets").bind Attr.ints? with
    | some [a, b] =>
      decide (-(2 ^ 63) ≤ a.toInt + b.toInt ∧ a.toInt + b.toInt < 2 ^ 63 ∧
        (a.toInt + b.toInt = (op.operands.length : Int) - 1 → 0 ≤ a.toInt ∧ 0 ≤ b.toInt))
    | _ => true
  else
    !op.kind.isSelect || ["compare_operand_offsets", "target_operand_offsets"].all fun name =>
          match op.offsets name with
          | .ok sizes => decide (sizes.sum < 2 ^ 64)
          | .error _ => true

theorem Operation.sum_lt_of_offsetsFit (hFit : op.offsetsFit = true)
    (hKind : op.kind.isSelect = true)
    (hName : name ∈ ["compare_operand_offsets", "target_operand_offsets"])
    (hSizes : op.offsets name = .ok sizes) : sizes.sum < 2 ^ 64 := by
  have hOther : op.kind ≠ .condBr := by
    intro hSame
    rw [hSame] at hKind
    cases hKind
  unfold offsetsFit at hFit
  rw [if_neg hOther, hKind, Bool.not_true, Bool.false_or, List.all_eq_true] at hFit
  have hThis := hFit name hName
  rw [hSizes] at hThis
  exact of_decide_eq_true hThis

/- The change adds a block or an argument, or describes an operation. -/
def Change.keepsLinks : Change → Bool
  | .newBlock .. | .addBlockArg .. | .setAttr .. | .setSpan .. => true
  | _ => false

namespace Module

theorem returns_unless {cond : Prop} [Decidable cond] {next : β → Complaining α}
    {rest : Complaining α} (hRest : Returns rest) :
    Returns (if cond then complain message >>= next else rest) := by
  split
  · exact ⟨.error message, rfl⟩
  · exact hRest

theorem returns_orComplain {f : String → String} {x : Except String α}
    (hNext : ∀ a, x = .ok a → Returns (next a)) : Returns (orComplain f x >>= next) := by
  cases x with
  | ok a => exact hNext a rfl
  | error message => exact ⟨.error (f message), rfl⟩

theorem splitOrComplain_returns {f : String → String}
    (hFits : sizes.sum < 2 ^ 64) : Returns (splitOrComplain f items sizes) := by
  unfold splitOrComplain Segments.split
  rw [checkedSum_eq_ok_iff.mpr ⟨hFits, rfl⟩]
  change Returns (liftM (if sizes.sum = items.length then _ else _) >>= _)
  split
  · exact ⟨_, rfl⟩
  · exact ⟨_, rfl⟩

theorem selectParts_returns (hFit : op.offsetsFit = true) (hKind : op.kind.isSelect = true) :
    Returns op.selectParts := by
  unfold Operation.selectParts
  cases op.operands with
  | nil => exact ⟨_, rfl⟩
  | cons selector rest =>
    cases (op.attr? "cases").bind Attr.array? with
    | none => exact ⟨_, rfl⟩
    | some cases =>
      refine returns_unless (returns_orComplain fun compare hCompare =>
        returns_orComplain fun targets hTargets => ?_)
      have hCompareSum := Operation.sum_lt_of_offsetsFit hFit hKind (by simp) hCompare
      refine returns_unless ?_
      refine .found (checkedSum_eq_ok_iff.mpr ⟨hCompareSum, rfl⟩) ?_
      refine returns_unless ?_
      refine .bind (splitOrComplain_returns hCompareSum) fun _ _ => ?_
      refine .bind (splitOrComplain_returns
        (Operation.sum_lt_of_offsetsFit hFit hKind (by simp) hTargets)) fun _ _ => ?_
      exact .pure _

/-
  A sum that is returned and expected belongs to sizes that divide
  the operands behind the condition.
-/
theorem branchSizes_returns (hFit : op.offsetsFit = true) (hKind : op.kind = .condBr)
    (hOp : m.op o = .ok op) {cond : ValueId}
    (hOperands : op.operands = cond :: rest) :
    ∃ covered, branchSizes op = .ok covered ∧ (covered = (op.operands.length : Int) - 1 →
        ∀ i < 2, ∃ args, m.successorOperands o i = .ok args) := by
  unfold Operation.offsetsFit at hFit
  rw [if_pos hKind] at hFit
  unfold branchSizes
  split
  · rename_i a b hInts
    simp only [hInts, decide_eq_true_eq] at hFit
    rcases hFit with ⟨hLow, hHigh, hSigns⟩
    refine ⟨a.toInt + b.toInt, if_pos ⟨hLow, hHigh⟩, ?_⟩
    intro hCovered i hTwo
    rcases hSigns hCovered with ⟨hA, hB⟩
    have hOffsets : op.offsets "target_operand_offsets" = .ok [a.toInt.toNat, b.toInt.toNat] := by
      unfold Operation.offsets
      simp only [hInts]
      rw [if_pos]
      · rfl
      · simp only [List.all_cons, List.all_nil, Bool.and_true,
          Bool.and_eq_true, decide_eq_true_eq, Int64.le_iff_toInt_le]
        exact ⟨hA, hB⟩
    rw [hOperands, List.length_cons] at hCovered
    unfold successorOperands
    simp only [hOp, bind, Except.bind, hKind, hOperands, hOffsets,
      Except.toOption, Option.getD_some, Segments.split]
    have hSum : [a.toInt.toNat, b.toInt.toNat].sum = rest.length := by
      simp only [List.sum_cons, List.sum_nil]
      omega
    rw [checkedSum_eq_ok_iff.mpr ⟨by omega, rfl⟩]
    dsimp only
    rw [if_pos hSum]
    rcases hAt : [a.toInt.toNat, b.toInt.toNat][i]? with _ | size
    · exact absurd hAt (by simp; omega)
    · exact except_bind_returns ⟨size, orElse_eq_ok_iff.mpr hAt⟩ fun _ _ => ⟨_, rfl⟩
  · refine ⟨-1, rfl, fun hCovered => ?_⟩
    rw [hOperands, List.length_cons] at hCovered
    omega

namespace Readable

variable (hReadable : m.Readable) (hKnown : m.Known o op)
include hReadable hKnown

theorem verifySuccessor (hDest : dest ∈ op.successors)
    (hArgs : m.HasValues args) : Returns (m.verifySuccessor o dest args) := by
  unfold Module.verifySuccessor
  extract_lets jump
  have hRest : ∀ region, Returns (jump region) := by
    intro region
    refine .read (hKnown.successors dest hDest)
      fun target hTarget => hKnown.ensure fun _ => ?_
    rcases hReadable.around dest target hTarget with ⟨hParams, home, -, hHome, -⟩
    refine .found (bind_eq_ok_iff.mpr ⟨target, hTarget,
      bind_eq_ok_iff.mpr ⟨home, hHome, rfl⟩⟩) ?_
    refine hKnown.ensure fun _ => .allTypes hParams fun _ => ?_
    exact .allTypes hArgs fun _ => hKnown.ensured _ _
  split
  · exact hRest none
  · rename_i b hPlace
    exact .read (block_of_blockOps (hReadable.places o b hPlace)) fun info _ => hRest _

theorem verifySuccessors
    (hDests : ∀ b ∈ dests, b ∈ op.successors) (hArgs : ∀ vs ∈ args, m.HasValues vs) :
    Returns (m.verifySuccessors o dests args) := by
  fun_induction Module.verifySuccessors m o dests args with
  | case1 b bs vs rest ih =>
    rcases List.forall_mem_cons.mp hDests with ⟨hDest, hDests⟩
    rcases List.forall_mem_cons.mp hArgs with ⟨hFirst, hRest⟩
    exact .bind (hReadable.verifySuccessor hKnown hDest hFirst) fun _ _ => ih hDests hRest
  | case2 => exact .pure ()

theorem verifyBr : Returns (m.verifyBr o) := by
  refine hKnown.look ?_
  split
  · rename_i dest hDests
    exact hReadable.verifySuccessor hKnown (by simp [hDests]) hKnown.operands
  · exact hKnown.reject _

variable (hFit : op.offsetsFit = true)
include hFit

theorem verifyCondBr (hKind : op.kind = .condBr) :
    Returns (m.verifyCondBr o) := by
  refine hKnown.look (hKnown.ensure fun hTwo => ?_)
  refine .hasType (fun v hMember => hKnown.operands v
    (List.mem_of_mem_head? (Option.mem_toList.mp hMember)))
    fun fits hSome => hKnown.ensure fun hFits => ?_
  cases hOperands : op.operands with
  | nil => exact absurd (by rw [hOperands]; rfl) (hSome hFits)
  | cons cond rest =>
    rcases branchSizes_returns hFit hKind hKnown.found hOperands with ⟨covered, hSizes, hParts⟩
    refine .found hSizes (hKnown.ensure fun hCovered => ?_)
    rw [← hOperands] at hCovered
    refine .forM fun ⟨dest, i⟩ hMember => ?_
    have hAt := List.mem_zipIdx_iff_getElem?.mp hMember
    have hBelow := (List.getElem?_eq_some_iff.mp hAt).1
    rw [beq_iff_eq.mp hTwo] at hBelow
    refine .read (hParts (beq_iff_eq.mp hCovered) i hBelow) fun args hArgs => ?_
    rcases successorOperands_condBr_eq_ok hKnown.found hKind hArgs with
      ⟨c, vs, sizes, hList, -, hSum, hSegment⟩
    refine hReadable.verifySuccessor hKnown (List.mem_of_getElem? hAt)
      fun v hIn => hKnown.operands v ?_
    rw [hList, ← Segments.flatten_toLists hSum]
    exact .tail c (List.mem_flatten.mpr ⟨args, List.mem_of_getElem? hSegment, hIn⟩)

theorem verifySelect (hKind : op.kind.isSelect = true) :
    Returns (Module.verifySelect records m o) := by
  refine hKnown.look ?_
  rcases selectParts_returns hFit hKind with ⟨found, hFound⟩
  have hTry : m.trySelectParts o = .ok found := by
    unfold trySelectParts
    simp only [hKnown.found, bind, Except.bind, hKind]
    exact hFound
  refine .found hTry ?_
  cases found with
  | error complaint => exact hKnown.reject complaint
  | ok parts =>
    rcases selectParts_answers hFound with ⟨hOperands, hDests, -, -, -⟩
    have hValues : m.HasValues (parts.selector :: (parts.compare.toLists.flatten ++
          parts.targets.toLists.flatten)) := hOperands ▸ hKnown.operands
    have hLast : Returns (m.verifySuccessors o parts.dests parts.targets.toLists) := by
      refine hReadable.verifySuccessors hKnown
        (fun b hMember => hDests ▸ hMember) fun vs hList v hIn => ?_
      exact hValues v (.tail _ (List.mem_append_right _
        (List.mem_flatten.mpr ⟨vs, hList, hIn⟩)))
    refine .type (hValues _ (.head _)) fun selector => ?_
    extract_lets final jump
    have hFinal : Returns (final ()) := hKnown.ensure fun _ => hLast
    have hRest : ∀ u, Returns (jump u) := by
      intro u
      simp only [jump]
      split
      · exact hKnown.ensure fun _ => hFinal
      · exact hFinal
    have hCases : ∀ tags lists, Returns (verifyCaseOperands records m o tags lists) := by
      intro tags lists
      fun_induction verifyCaseOperands records m o tags lists with
      | case1 tag tags list rest ih => exact hKnown.ensure fun _ => ih
      | case2 => exact .pure ()
    split
    · exact hKnown.ensure fun _ => .bind (hCases _ _) fun u _ => hRest u
    all_goals exact hKnown.ensure fun _ => hKnown.ensure fun _ => hRest ()

----
-- Operations and modules
----

theorem verifyKind :
    Returns (Module.verifyKind records m o op.kind) := by
  cases hKind : op.kind with
  | constant => exact hKnown.verifyConstant
  | undefined | convert | unreachable => exact hKnown.counted _ _
  | alloca | allocMem => exact hKnown.verifyAlloc
  | freeMem => exact hKnown.verifyFreeMem
  | load | embox | boxAddr => exact hKnown.converted
  | store => exact hKnown.verifyStore
  | addF | subF | mulF | divF | addI | subI | mulI => exact hKnown.verifyBinary
  | cmpF | cmpI => exact hKnown.verifyCmp
  | call => exact hReadable.verifyCall hKnown
  | genTypeDesc => exact hKnown.verifyGenTypeDesc
  | addressOf => exact hReadable.verifyAddressOf hKnown
  | ifOp => exact hReadable.verifyIf hKnown
  | doLoop | iterateWhile => exact hReadable.verifyLoop hKnown (by rw [hKind]; rfl)
  | result => exact hReadable.verifyResult hKnown
  | select | selectCase | selectRank | selectType =>
    exact hReadable.verifySelect hKnown hFit (by rw [hKind]; rfl)
  | br => exact hReadable.verifyBr hKnown
  | condBr => exact hReadable.verifyCondBr hKnown hFit hKind
  | ret => exact hReadable.verifyReturn hKnown
  | func => exact hReadable.verifyFunc hKnown
  | global =>
    exact hReadable.verifyGlobal hKnown (hReadable.globals o op hKnown.found hKind)
  | hasValue => exact hReadable.verifyHasValue hKnown
  | dispatchTable => exact hReadable.verifyDispatchTable hKnown
  | dtEntry => exact hReadable.verifyDtEntry hKnown

theorem verifyOp : Returns (Module.verifyOp records m o) := by
  refine hKnown.look ?_
  refine .bind (hKnown.verifyOperands hKnown.operands) ?_
  intro _ _
  refine .bind (hReadable.verifyPlacement hKnown) fun _ _ => ?_
  exact hReadable.verifyKind hKnown hFit

end Readable

----
-- Modules built with typed steps
----

/- What an operation refers to exists in the module. -/
structure Links (m : Module) (op : Operation) : Prop where
  operands : ∀ v ∈ op.operands, m.values[v.index]?.isSome
  successors : ∀ b ∈ op.successors, m.blocks[b.index]?.isSome
  region : op.kind = .global → op.regions ≠ []

/- No operation and no block refers to something missing. -/
structure Linked (m : Module) : Prop where
  ops : ∀ (k : Nat) (op : Operation), m.ops[k]? = some op → m.Links op
  blocks : ∀ (k : Nat) (info : BlockInfo), m.blocks[k]? = some info →
      m.regions[info.region.index]?.isSome

namespace Linked

variable {m' : Module}

/- Nothing goes away, and what is new refers to what is there. -/
theorem of_growth (hValues : ∀ k : Nat, m.values[k]?.isSome → m'.values[k]?.isSome) (hBlocks :
      ∀ k : Nat, m.blocks[k]?.isSome → m'.blocks[k]?.isSome) (hOps :
      ∀ (k : Nat) (op : Operation), m'.ops[k]? = some op → m.Links op) (hHomes :
      ∀ (k : Nat) (info : BlockInfo), m'.blocks[k]? = some info →
        m'.regions[info.region.index]?.isSome) : m'.Linked where
  ops := by
    intro k op hOp
    have hLinks := hOps k op hOp
    exact {
      operands := fun v hIn => hValues _ (hLinks.operands v hIn)
      successors := fun b hIn => hBlocks _ (hLinks.successors b hIn)
      region := hLinks.region }
  blocks := hHomes

variable (hLinked : m.Linked)
include hLinked

/- Only places and layouts change. -/
theorem of_layout (hValues : m'.values = m.values) (hBlocks : m'.blocks = m.blocks)
    (hOps : m'.ops = m.ops) (hRegions : ∀ k : Nat, m.regions[k]?.isSome → m'.regions[k]?.isSome) :
    m'.Linked := by
  refine of_growth (m := m) (by simp [hValues]) (by simp [hBlocks]) (hOps ▸ hLinked.ops) ?_
  intro k info hInfo
  exact hRegions _ (hLinked.blocks k info (hBlocks ▸ hInfo))

theorem newOp (hCount : kind = .global → count = 1) (hRun :
      Module.newOp kind operands types attrs count successors m = .ok o m') : m'.Linked := by
  rcases newOp_eq_ok hRun with
    ⟨rfl, hOperands, hSuccessors, values, blocks, regions, rfl, hValues, hBlocks, hRegions⟩
  refine of_growth (m := m) ?_ (by simp [hBlocks]) ?_ ?_
  · intro k hOld
    rw [hValues]
    split
    · simp only [Option.isSome_map, isSome_getElem?]
      omega
    · simpa using hOld
  · intro k op hOp
    rw [getElem?_insert_nat] at hOp
    split at hOp
    · cases hOp
      refine ⟨?_, ?_, fun hGlobal => ?_⟩
      · exact fun v hIn => Option.isSome_iff_exists.mpr (hOperands v hIn)
      · exact fun b hIn => Option.isSome_iff_exists.mpr (hSuccessors b hIn)
      · simp [hCount hGlobal, regionIds]
    · exact hLinked.ops k op hOp
  · intro k info hInfo
    rw [hBlocks] at hInfo
    rcases Option.map_eq_some_iff.mp hInfo with ⟨old, hOld, hNew⟩
    have hHome : info.region = old.region := by
      rw [← hNew]
      split <;> rfl
    rw [hHome, hRegions]
    split
    · rfl
    · exact hLinked.blocks k old hOld

theorem create (hModule : b.module = m) (hCount : kind = .global → count = 1)
    (hRun : Build.create kind operands types attrs count successors b = .ok o b') :
    b'.module.Linked := by
  rcases Build.create_eq_ok hRun with ⟨m₁, hNew, hPlace⟩
  rw [hModule] at hNew
  have hNext := hLinked.newOp hCount hNew
  rcases hPlace with ⟨block, hPlace⟩ | hPlace
  · rcases appendOp_eq_ok_iff.mp hPlace with ⟨_, _, _, -, -, -, -, -, hAfter⟩
    rw [hAfter]
    exact hNext.of_layout rfl rfl rfl fun k hOld => by simpa [Std.TreeMap.mem_modify] using hOld
  · rw [(pushTop_eq_ok_iff.mp hPlace).2]
    exact hNext.of_layout rfl rfl rfl fun _ => id

/- A block that is placed belongs to a region that exists. -/
theorem newBlock (hRun : (Change.newBlock r types).run m = .ok () m') : m'.Linked := by
  rcases newBlock_eq_ok hRun with ⟨b, m₁, hDetached, hPlace⟩
  rcases newDetachedBlock_run r types m with ⟨values, hRun', hValues⟩
  cases hRun'.symm.trans hDetached
  rcases placeBlock_eq_ok_iff.mp hPlace with ⟨info, region, hInfo, hRegion, -, rfl⟩
  rw [getElem?_insert_nat, if_pos rfl, Option.some.injEq] at hInfo
  subst hInfo
  refine of_growth (m := m) ?_ ?_ hLinked.ops ?_
  · intro k hOld
    rw [hValues]
    split
    · simp only [Option.isSome_map, isSome_getElem?]
      omega
    · exact hOld
  · exact fun k hOld => isSome_of_insert hOld
  · intro k info hInfo
    rw [getElem?_insert_nat] at hInfo
    have hHome : m.regions[info.region.index]?.isSome := by
      split at hInfo
      · cases hInfo
        exact Option.isSome_iff_exists.mpr ⟨region, hRegion⟩
      · exact hLinked.blocks k info hInfo
    simpa [Std.TreeMap.mem_modify] using hHome

theorem addBlockArg (hRun : Module.addBlockArg b t m = .ok v m') : m'.Linked := by
  rcases addBlockArg_eq_ok_iff.mp hRun with ⟨block, _, -, rfl⟩
  refine of_growth (m := m) ?_ ?_ hLinked.ops ?_
  · exact fun k hOld => isSome_of_insert hOld
  · exact fun k hOld => by simpa [Std.TreeMap.mem_modify] using hOld
  · intro k info hInfo
    rcases entry_of_modify hInfo with ⟨old, hOld, rfl | rfl⟩
    all_goals exact hLinked.blocks k old hOld

theorem updateOp {f : Operation → Operation} (hRun : Module.updateOp o f m = .ok () m')
    (hKept : ∀ op, m.Links op → m.Links (f op)) : m'.Linked := by
  rcases updateOp_eq_ok_iff.mp hRun with ⟨-, rfl⟩
  refine of_growth (m := m) (fun _ => id) (fun _ => id) ?_ hLinked.blocks
  intro k op hOp
  rcases entry_of_modify hOp with ⟨old, hOld, rfl | rfl⟩
  · exact hKept old (hLinked.ops k old hOld)
  · exact hLinked.ops k old hOld

end Linked

/-
  The modules that come from an empty one by typed steps of
  builders at any insertion points, by new blocks and arguments,
  and by new attributes and spans of operations.
-/
inductive TypedBuilt : Module → Prop where
  | empty (handles : Handles) : TypedBuilt (emptyAfter handles)
  | build {b b' : Builder} (s : BuildStep) (hBefore : TypedBuilt b.module)
      (hRun : s.run b = .ok () b') : TypedBuilt b'.module
  | change {m m' : Module} (c : Change) (hKeeps : c.keepsLinks = true) (hBefore : TypedBuilt m)
      (hRun : c.run m = .ok () m') : TypedBuilt m'
  | elsewhere {m : Module} {handles : Handles} (hBefore : TypedBuilt m)
      (hOp : m.handles.op ≤ handles.op) (hValue : m.handles.value ≤ handles.value)
      (hBlock : m.handles.block ≤ handles.block) (hRegion : m.handles.region ≤ handles.region) :
      TypedBuilt { m with handles := handles }

namespace TypedBuilt

theorem constructed (hBuilt : m.TypedBuilt) : m.Constructed := by
  induction hBuilt with
  | empty handles => exact .empty handles
  | build s _ hRun ih => exact .build s ih hRun
  | change c hKeeps _ hRun ih =>
    refine .change c ?_ ih hRun
    cases c <;> first | rfl | cases hKeeps
  | elsewhere _ hOp hValue hBlock hRegion ih => exact .elsewhere ih hOp hValue hBlock hRegion

theorem linked (hBuilt : m.TypedBuilt) : m.Linked := by
  induction hBuilt with
  | empty handles => constructor <;> simp [emptyAfter]
  | build s _ hRun ih =>
    refine s.keeps ?_ ?_ _ _ _ hRun ih
    · intro kind operands types attrs count successors hCount
      exact fun b o b' hRun hLinked => hLinked.create rfl hCount hRun
    · exact fun r types m m' hRun hLinked => hLinked.newBlock hRun
  | change c hKeeps _ hRun ih =>
    cases c with
    | newBlock => exact ih.newBlock hRun
    | addBlockArg =>
      rcases discard_eq_ok hRun with ⟨v, hAdd⟩
      exact ih.addBlockArg hAdd
    | setAttr | setSpan => exact ih.updateOp hRun fun op h => ⟨h.1, h.2, h.3⟩
    | _ => cases hKeeps
  | elsewhere _ _ _ _ _ ih =>
    exact ⟨fun k op hOp => ⟨(ih.ops k op hOp).1, (ih.ops k op hOp).2,
      (ih.ops k op hOp).3⟩, ih.blocks⟩

theorem readable (hBuilt : m.TypedBuilt) : m.Readable := by
  have hLinked := hBuilt.linked
  have hKept := hBuilt.constructed.nestingKept
  have hReached := hBuilt.constructed.reached
  have hOwners := hReached.ownersKept
  have hDefined := hReached.definitionsKept
  constructor
  · intro o op hOp
    have hEntry := op_eq_ok_iff.mp hOp
    have hLinks := hLinked.ops _ op hEntry
    refine ⟨hOp, ?_, ?_, ?_, ?_⟩
    · intro v hIn
      rcases Option.isSome_iff_exists.mp (hLinks.operands v hIn) with ⟨info, hInfo⟩
      exact ⟨info, value_eq_ok_iff.mpr hInfo⟩
    · intro v hIn
      rcases List.mem_iff_getElem?.mp hIn with ⟨i, hAt⟩
      rcases Option.map_eq_some_iff.mp (hDefined.results _ op hEntry i v hAt) with ⟨info, hInfo, -⟩
      exact ⟨info, value_eq_ok_iff.mpr hInfo⟩
    · intro b hIn
      rcases Option.isSome_iff_exists.mp (hLinks.successors b hIn) with ⟨info, hInfo⟩
      exact ⟨info, block_eq_ok_iff.mpr hInfo⟩
    · intro r hIn
      rcases (hKept.regions _ op hEntry).2 r hIn with ⟨region, hRegion⟩
      exact ⟨region, region_eq_ok_iff.mpr hRegion⟩
  · intro r region hRegion b hIn
    rcases List.mem_map.mp hIn with ⟨⟨c, os⟩, hMember, rfl⟩
    exact ⟨os, hOwners.blockOps_eq (region_eq_ok_iff.mp hRegion) hMember⟩
  · intro b info hInfo
    have hEntry := block_eq_ok_iff.mp hInfo
    constructor
    · intro v hIn
      rcases List.mem_iff_getElem?.mp hIn with ⟨i, hAt⟩
      rcases Option.map_eq_some_iff.mp (hDefined.args _ info hEntry i v hAt) with ⟨value, hValue, -⟩
      exact ⟨value, value_eq_ok_iff.mpr hValue⟩
    · rcases Option.isSome_iff_exists.mp (hLinked.blocks _ info hEntry) with ⟨region, hRegion⟩
      rcases (hOwners.regions _ region hRegion).2 with ⟨op, hOp, -⟩
      exact ⟨region, op, region_eq_ok_iff.mpr hRegion, op_eq_ok_iff.mpr hOp⟩
  · intro b os hOps o hIn
    rcases hKept.placed _ b ((hOwners.of_blockOps hOps).2 o hIn) with ⟨op, hOp⟩
    exact ⟨op, op_eq_ok_iff.mpr hOp⟩
  · intro o b hPlace
    rcases hReached.parentBlock?_eq_some_iff.mp hPlace with ⟨os, hOps, -⟩
    exact ⟨os, hOps⟩
  · intro o hTop
    rcases (hKept.top o hTop).1 with ⟨op, hOp⟩
    exact ⟨op, op_eq_ok_iff.mpr hOp⟩
  · exact fun o op hOp => (hLinked.ops _ op (op_eq_ok_iff.mp hOp)).region

/-
  Verification of a module that is built with typed steps has no
  fault, whatever its attributes are, if the offsets of branches
  can be summed.
-/
theorem verify_returns (hBuilt : m.TypedBuilt)
    (hFit : ∀ o op, m.op o = .ok op → op.offsetsFit = true) (records : RecordTable) :
    ∃ answer, (verify records m).run = .ok answer := by
  have hReadable := hBuilt.readable
  rcases walk_returns hBuilt.constructed.nestingKept with ⟨walked, hWalk⟩
  change Returns (verify records m)
  refine .bind (hReadable.verifySymbols hReadable.top) ?_
  intro _ _
  refine .found hWalk (.forM fun o hMember => ?_)
  rcases exists_of_mem_walk hWalk hMember with ⟨op, hOp⟩
  exact hReadable.verifyOp (hReadable.known o op hOp) (hFit o op hOp)

/- A block that branches to itself, with sizes of its own. -/
def selfBranch (sizes : List Int64) : Option Module := do
  let m ← (emptyAfter {}).built [([], .func "f" (.function [.i1] [])), ([], .funcBody ⟨0⟩),
      ([⟨0⟩], .condBr ⟨0⟩ ⟨0⟩ [⟨0⟩] ⟨0⟩ [⟨0⟩])]
  m.after [.setAttr ⟨1⟩ "target_operand_offsets" (.ints sizes)]

theorem of_selfBranch {sizes : List Int64} (hBranch : selfBranch sizes = some m) :
    m.TypedBuilt := by
  unfold selfBranch at hBranch
  rw [Option.bind_eq_bind, Option.bind_eq_some_iff] at hBranch
  rcases hBranch with ⟨m₁, hSteps, hAfter⟩
  have hBefore : m₁.TypedBuilt := built_keeps (fun s b _ b' hRun hBefore => .build s hBefore hRun)
      (.empty {}) hSteps
  unfold Module.after at hAfter
  split at hAfter
  · rename_i hRun
    cases hAfter
    rcases bind_eq_ok hRun with ⟨_, m₂, hFirst, hRest⟩
    cases hRest
    exact .change _ rfl hBefore hFirst
  · cases hAfter

theorem verify_returns_uneven : ∃ m, selfBranch [0, 2] = some m ∧ m.TypedBuilt ∧
      ∃ answer, (verify {} m).run = .ok answer := by
  have hFits : ∃ m ∈ selfBranch [0, 2], ∀ entry ∈ m.ops.toList, entry.2.offsetsFit = true := by
    decide +kernel
  rcases hFits with ⟨m, hBranch, hAll⟩
  have hBuilt := of_selfBranch hBranch
  refine ⟨m, hBranch, hBuilt, hBuilt.verify_returns ?_ {}⟩
  intro o op hOp
  exact hAll (o.index, op) (Std.TreeMap.mem_toList_iff_getElem?_eq_some.mpr (op_eq_ok_iff.mp hOp))

/-
  Sizes of which one is negative can have the sum that is
  expected, and then there is no division into segments.
-/
theorem verify_negativeOffset : ∃ m, selfBranch [-1, 3] = some m ∧ m.TypedBuilt ∧
      (verify {} m).run = .error .malformedBranchOffsets := by
  have hFault : ∃ m ∈ selfBranch [-1, 3], (verify {} m).run = .error .malformedBranchOffsets := by
    decide +kernel
  rcases hFault with ⟨m, hBranch, hRun⟩
  exact ⟨m, hBranch, of_selfBranch hBranch, hRun⟩

end TypedBuilt

end Module

end FortranIR
