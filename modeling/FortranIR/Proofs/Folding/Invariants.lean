import FortranIR.Proofs.Verification.Preservation

/-
  This file states what folding relies on beyond verification:
  values are used where they can be seen, and the address in a
  descriptor has the type that is read from it.

  Both are about the module as folding may change it, so the
  second one follows the values that folding may put in place of
  an operand. Both stay true under a reduction that replaces
  operands by such values.

  Main declarations:
    * `Module.Inside`
    * `Module.Reduces.faithful_after`
-/

namespace FortranIR

variable {v w : ValueId} {u p o : OpId}

namespace Module

variable {m m' : Module}

----
-- Scopes
----

/- An operation stands in another one, directly or not. -/
def Inside (m : Module) (outer inner : OpId) : Prop := Relation.TransGen m.Within outer inner

/-
  A value that is defined in this way can be seen from an
  operation: the operation is in a region that the definition
  is directly in, and the definition is part of the module.
-/
def SeenFrom (m : Module) (u : OpId) : ValueDef → Prop
  | .result d _ => m.Live d ∧ ∀ p, m.Within p d → m.Inside p u
  | .arg b _ => ∀ p, m.blockOwner b = .ok p → m.Inside p u
  | .placeholder => True

/- A value can be seen from an operation. -/
def Visible (m : Module) (u : OpId) (v : ValueId) : Prop :=
  ∀ info : ValueInfo, m.values[v.index]? = some info → m.SeenFrom u info.defined

/- The operations of a module see the values that they use. -/
def Scoped (m : Module) : Prop := ∀ (u : OpId) (op : Operation), m.Live u →
    m.ops[u.index]? = some op → ∀ v ∈ op.operands, m.Visible u v

/- What is closed under nesting holds of all that is inside. -/
theorem Inside.closed {P : OpId → Prop} (hClosed : ∀ p q, P p → m.Within p q → P q)
    (hInside : m.Inside p u) (hOuter : P p) : P u := by
  induction hInside with
  | single hWithin => exact hClosed _ _ hOuter hWithin
  | tail _ hWithin ih => exact hClosed _ _ ih hWithin

/- What is around an operation is around all that sees it. -/
theorem Inside.around (hInside : m.Inside p o) (hSees : ∀ q, m.Within q o → m.Inside q u) :
    m.Inside p u := by
  cases hInside with
  | single hWithin => exact hSees p hWithin
  | tail hOuter hWithin => exact hOuter.trans (hSees _ hWithin)

/-
  An operation that sees a result sees what the operation with
  that result sees.
-/
theorem Visible.trans (hResult : m.Visible u r)
    (hInfo : m.values[r.index]? = some info) (hDefined : info.defined = .result o i)
    (hOperand : m.Visible o v) : m.Visible u v := by
  have hSeen := hResult info hInfo
  rw [hDefined] at hSeen
  rcases hSeen with ⟨-, hAround⟩
  intro other hOther
  have hInner := hOperand other hOther
  revert hInner
  cases other.defined with
  | result d j =>
    rintro ⟨hLive, hOuter⟩
    exact ⟨hLive, fun p hWithin => (hOuter p hWithin).around hAround⟩
  | arg b j => exact fun hOuter p hOwner => (hOuter p hOwner).around hAround
  | placeholder => exact fun _ => trivial

----
-- Operations that are left
----

/-
  What is left of a module stays where it is: operations in their
  blocks, blocks in their regions, regions in their operations.
-/
structure Stays (m m' : Module) : Prop where
  top : ∀ p ∈ m.top, p ∈ m'.top ∨ (∃ op, m.ops[p.index]? = some op) ∧ m'.ops[p.index]? = none
  places : ∀ (o : OpId) (op' : Operation), m'.ops[o.index]? = some op' →
      m'.places[o.index]? = m.places[o.index]?
  homes : Remains BlockInfo.region m.blocks m'.blocks
  parents : Remains RegionInfo.parent m.regions m'.regions

theorem Reduces.stays (hReduces : m.Reduces σ gone m') : m.Stays m' where
  top := fun p hTop => .inl (hReduces.top ▸ hTop)
  places := hReduces.places
  homes := by
    intro k info' hInfo'
    rcases hReduces.blocks k info' hInfo' with ⟨info, hInfo, hHome, -⟩
    exact ⟨info, hInfo, hHome⟩
  parents := by
    intro k region' hRegion'
    rcases hReduces.regions k region' hRegion' with ⟨region, hRegion, rfl⟩
    exact ⟨region, hRegion, rfl⟩

namespace Stays

variable (hReached : m.Reached) (hReached' : m'.Reached) (hStays : m.Stays m')
include hReached hReached' hStays

/- An operation that is left is still within the same one. -/
theorem within_after (hOp' : m'.ops[o.index]? = some op') (hWithin : m.Within p o) :
    m'.Within p o := by
  rcases hReached.ownersKept.place_of_within hWithin with
    ⟨b, os, info, region, hPlace, hInfo, hRegion, rfl, -, -⟩
  have hPlace' : m'.places[o.index]? = some b := (hStays.places o op' hOp').trans hPlace
  rcases hReached'.placesKept.within hReached'.ownersKept hPlace' with
    ⟨info', region', hInfo', hRegion', hWithin'⟩
  rcases hStays.homes _ info' hInfo' with ⟨found, hFound, hHome⟩
  cases hInfo.symm.trans hFound
  rw [hHome] at hRegion'
  rcases hStays.parents _ region' hRegion' with ⟨same, hSame, hParent⟩
  cases hRegion.symm.trans hSame
  exact hParent ▸ hWithin'

theorem inside_after (hOp' : m'.ops[u.index]? = some op') (hInside : m.Inside p u) :
    m'.Inside p u := by
  induction hInside generalizing op' with
  | single hWithin => exact .single (within_after hReached hReached' hStays hOp' hWithin)
  | tail _ hWithin ih =>
    rcases within_after hReached hReached' hStays hOp' hWithin with
      ⟨outer, r, bs, b, os, hOuter, hRest⟩
    exact (ih hOuter).tail ⟨outer, r, bs, b, os, hOuter, hRest⟩

/- An operation that is left is still part of the module. -/
theorem live_after (hOp' : m'.ops[o.index]? = some op') (hLive : m.Live o) : m'.Live o := by
  induction hLive generalizing op' with
  | @top p hTop =>
    rcases hStays.top p hTop with hTop' | ⟨-, hNone⟩
    · exact .top hTop'
    · rw [hOp'] at hNone
      cases hNone
  | within _ hWithin ih =>
    rcases within_after hReached hReached' hStays hOp' hWithin with
      ⟨outer, r, bs, b, os, hOuter, hRest⟩
    exact (ih hOuter).within ⟨outer, r, bs, b, os, hOuter, hRest⟩

end Stays

namespace Reduces

variable (hReduces : m.Reduces σ gone m')
include hReduces

theorem visible_after (hOp' : m'.ops[u.index]? = some op') (hVisible : m.Visible u v) :
    m'.Visible u v := by
  intro info' hInfo'
  rcases hReduces.values _ info' hInfo' with ⟨info, hInfo, -, hDefined⟩
  have hSeen := hVisible info hInfo
  rw [← hDefined] at hSeen
  have hInside : ∀ p, m.Inside p u → m'.Inside p u :=
    fun p => hReduces.stays.inside_after hReduces.before hReduces.after hOp'
  cases hCase : info'.defined with
  | result d i =>
    rw [hCase] at hSeen
    rcases hReduces.after.ownersKept.results _ info' hInfo' d i hCase with ⟨found, hFound, -⟩
    refine ⟨hReduces.stays.live_after hReduces.before hReduces.after hFound hSeen.1,
      fun p hWithin => ?_⟩
    exact hInside p (hSeen.2 p (hReduces.within_before hWithin))
  | arg b i =>
    rw [hCase] at hSeen
    intro p hOwner
    rcases blockOwner_eq_ok_iff.mp hOwner with ⟨block', region', hBlock', hRegion', rfl⟩
    rcases hReduces.blocks _ block' hBlock' with ⟨block, hBlock, hHome, -⟩
    rcases hReduces.regions _ region' hRegion' with ⟨region, hRegion, rfl⟩
    exact hInside _ (hSeen _ (blockOwner_eq_ok_iff.mpr
      ⟨block, region, hBlock, hHome ▸ hRegion, rfl⟩))
  | placeholder => trivial

/- Values stay visible if the values in their places are. -/
theorem scoped_after (hVisible : ∀ (u : OpId) (op : Operation), m.Live u →
        m.ops[u.index]? = some op → ∀ v ∈ op.operands, m.Visible u (σ v)) : m'.Scoped := by
  intro u op' hLive' hOp' v' hOperand
  rcases hReduces.ops u op' hOp' with ⟨op, hOp, rfl | ⟨-, -, value, rfl⟩⟩
  · rcases List.mem_map.mp hOperand with ⟨v, hIn, rfl⟩
    exact hReduces.visible_after hOp' (hVisible u op (hReduces.live_before hLive') hOp v hIn)
  · cases hOperand

end Reduces

----
-- Values in the place of others
----

/-
  A value is the result of an operation of the module, of a kind
  and with a first operand.
-/
def Gives (m : Module) (kind : OpKind) (v r : ValueId) : Prop := ∃ info o i op,
    m.values[r.index]? = some info ∧ info.defined = .result o i ∧ m.Live o ∧
    m.ops[o.index]? = some op ∧ op.kind = kind ∧ op.operands.head? = some v

/- Two values have the same type. -/
def SameType (m : Module) (v w : ValueId) : Prop := ∃ t, m.typeOf v = .ok t ∧ m.typeOf w = .ok t

/-
  The values that folding may put in the place of one, now or
  after it has folded the operations in between.
-/
inductive Yields (m : Module) : ValueId → ValueId → Prop where
  | refl (v : ValueId) : Yields m v v
  | same {v r w : ValueId} (hConvert : m.Gives .convert v r) (hType : m.SameType v r)
      (hRest : Yields m v w) : Yields m r w
  | trip {v r u s w : ValueId} (hOuter : m.Gives .convert v r) (hInner : Yields m v u)
      (hConvert : m.Gives .convert s u) (hBoolean : m.typeOf u = .ok .i1) (hType : m.SameType s r)
      (hRest : Yields m s w) : Yields m r w
  | address {v r b x w : ValueId} (hOuter : m.Gives .boxAddr v r) (hInner : Yields m v b)
      (hEmbox : m.Gives .embox x b) (hRest : Yields m x w) : Yields m r w

/-
  The address that is read from a descriptor has the type of the
  address that the descriptor was made from.
-/
def Faithful (m : Module) : Prop := ∀ v r b x : ValueId, m.Gives .boxAddr v r → m.Yields v b →
    m.Gives .embox x b → m.SameType x r

theorem Yields.trans {u : ValueId} (hFirst : m.Yields v u) (hSecond : m.Yields u w) :
    m.Yields v w := by
  induction hFirst with
  | refl => exact hSecond
  | same hConvert hType _ ih => exact .same hConvert hType (ih hSecond)
  | trip hOuter hInner hConvert hBoolean hType _ _ ih =>
    exact .trip hOuter hInner hConvert hBoolean hType (ih hSecond)
  | address hOuter hInner hEmbox _ _ ih => exact .address hOuter hInner hEmbox (ih hSecond)

namespace Reduces

theorem typeOf_before (hReduces : m.Reduces σ gone m') (hType : m'.typeOf v = .ok t) :
    m.typeOf v = .ok t := by
  rcases typeOf_eq_ok_iff.mp hType with ⟨info', hInfo', hSame⟩
  rcases hReduces.values _ info' hInfo' with ⟨info, hInfo, hEq, -⟩
  exact typeOf_eq_ok_iff.mpr ⟨info, hInfo, hEq.symm.trans hSame⟩

section

variable (hReduces : m.Reduces σ gone m') (hVerified : m.Verified records)
include hReduces hVerified

/- What gives a value gave it before, with another operand. -/
theorem gives_before (hGives : m'.Gives kind v' r)
    (hKind : kind ≠ .constant) : ∃ v, σ v = v' ∧ m.Gives kind v r ∧ m'.typeOf v' = m.typeOf v := by
  rcases hGives with ⟨info', o, i, op', hInfo', hDefined, hLive', hOp', hSame, hHead⟩
  rcases hReduces.values _ info' hInfo' with ⟨info, hInfo, -, hEq⟩
  rcases hReduces.ops o op' hOp' with ⟨op, hOp, rfl | ⟨-, -, value, rfl⟩⟩
  · rw [Operation.redirect_operands, List.head?_map, Option.map_eq_some_iff] at hHead
    rcases hHead with ⟨v, hFirst, rfl⟩
    have hLive := hReduces.live_before hLive'
    exact ⟨v, rfl, ⟨info, o, i, op, hInfo, hEq ▸ hDefined, hLive, hOp,
      hSame, hFirst⟩, (hReduces.operand_left hVerified hLive
        (op_eq_ok_iff.mpr hOp) (op_eq_ok_iff.mpr hOp') (List.mem_of_head? hFirst)).1⟩
  · exact absurd hSame.symm hKind

/- Folding may put no other values in place of one than before. -/
theorem yields_before (hYields : ∀ v, m.Yields v (σ v)) (hAfter : m'.Yields v w) :
    m.Yields v w := by
  induction hAfter with
  | refl v => exact .refl v
  | same hConvert hType _ ih =>
    rcases hReduces.gives_before hVerified hConvert nofun with ⟨v, rfl, hBefore, hSame⟩
    rcases hType with ⟨t, hSource, hTarget⟩
    exact .same hBefore ⟨t, hSame ▸ hSource, hReduces.typeOf_before hTarget⟩ ((hYields v).trans ih)
  | trip hOuter _ hConvert hBoolean hType _ ihInner ihRest =>
    rcases hReduces.gives_before hVerified hOuter nofun with ⟨v, rfl, hOuterBefore, -⟩
    rcases hReduces.gives_before hVerified hConvert nofun with ⟨s, rfl, hConvertBefore, hSame⟩
    rcases hType with ⟨t, hSource, hTarget⟩
    exact .trip hOuterBefore ((hYields v).trans ihInner)
      hConvertBefore (hReduces.typeOf_before hBoolean)
      ⟨t, hSame ▸ hSource, hReduces.typeOf_before hTarget⟩ ((hYields s).trans ihRest)
  | address hOuter _ hEmbox _ ihInner ihRest =>
    rcases hReduces.gives_before hVerified hOuter nofun with ⟨v, rfl, hOuterBefore, -⟩
    rcases hReduces.gives_before hVerified hEmbox nofun with ⟨x, rfl, hEmboxBefore, -⟩
    exact .address hOuterBefore ((hYields v).trans ihInner) hEmboxBefore ((hYields x).trans ihRest)

theorem faithful_after (hYields : ∀ v, m.Yields v (σ v)) (hFaithful : m.Faithful) :
    m'.Faithful := by
  intro v' r b x' hAddr hInner hEmbox
  rcases hReduces.gives_before hVerified hAddr nofun with ⟨v, rfl, hAddrBefore, -⟩
  rcases hReduces.gives_before hVerified hEmbox nofun with ⟨x, rfl, hEmboxBefore, hSame⟩
  have hBefore := (hYields v).trans (hReduces.yields_before hVerified hYields hInner)
  rcases hFaithful v r b x hAddrBefore hBefore hEmboxBefore with ⟨t, hSource, hTarget⟩
  refine ⟨t, hSame.trans hSource, ?_⟩
  -- the result is there, so it has its type
  rcases hAddr with ⟨info', -, -, -, hInfo', -⟩
  rcases hReduces.values _ info' hInfo' with ⟨info, hInfo, hEq, -⟩
  rcases typeOf_eq_ok_iff.mp hTarget with ⟨found, hFound, rfl⟩
  cases hInfo.symm.trans hFound
  exact typeOf_eq_ok_iff.mpr ⟨info', hInfo', hEq⟩

end

end Reduces

end Module

end FortranIR
