import FortranIR.Proofs.Folding.Steps
import FortranIR.Proofs.Folding.Words

/-
  This file proves that folding computes trees of arithmetic over
  constants.

  Every fold cuts its result to the width. All of these steps are
  congruences, so the constant that is left in the end differs
  from the exact value of the tree by a multiple of the number of
  words. Folding stops at no tree, as an operation that is left
  has constant operands.

  Main declarations:
    * `Module.Combines`
    * `Module.Reached.foldAll_worth`
-/

namespace FortranIR

open Operation

variable {width : UInt32} {op : Operation}
variable {α β : Type} {value : Attr} {f : α → Fold β}

namespace Module

variable {m m' : Module}

----
-- Trees
----

/- An operation computes a value of a type from two others. -/
structure Combines (m : Module) (t : Ty) (o : OpId) (op : Operation) (l r v : ValueId) : Prop where
  live : m.Live o
  found : m.op o = .ok op
  kind : op.kind.isIntBinary = true
  operands : op.operands = [l, r]
  results : op.results = [v]
  type : m.typeOf v = .ok t

/- The exact value of a tree of arithmetic over constants. -/
inductive Worth (m : Module) (t : Ty) : ValueId → Int → Prop where
  | constant {v : ValueId} {x : Int64} (hWord : m.IsWord v t x) : Worth m t v x.toInt
  | arith {o : OpId} {op : Operation} {l r v : ValueId} {a c : Int}
      (hNode : m.Combines t o op l r v) (hLeft : Worth m t l a) (hRight : Worth m t r c) :
      Worth m t v (exactArith op.kind a c)

/- The operation that defines the result of a tree. -/
theorem Combines.source (hReached : m.Reached) (hNode : m.Combines t o op l r v) :
    ∃ info i, m.values[v.index]? = some info ∧ info.defined = .result o i ∧ info.type = t := by
  rcases typeOf_eq_ok_iff.mp hNode.type with ⟨info, hInfo, hType⟩
  rcases hReached.definitionsKept.result_source (op_eq_ok_iff.mp hNode.found)
    (by simp [hNode.results]) hInfo with ⟨i, hDefined⟩
  exact ⟨info, i, hInfo, hDefined, hType⟩

theorem Worth.source (hReached : m.Reached) (hWorth : m.Worth t v a) : ∃ info d i op,
      m.values[v.index]? = some info ∧ info.defined = .result d i ∧ m.ops[d.index]? = some op ∧
      (op.kind = .constant ∨ op.kind.isIntBinary = true) := by
  cases hWorth with
  | constant hWord =>
    rcases finds_constantOf.mp hWord.1 with ⟨info, d, i, op, hInfo, hDefined, hOp, hKind, -⟩
    exact ⟨info, d, i, op, hInfo, hDefined, op_eq_ok_iff.mp hOp, .inl hKind⟩
  | arith hNode =>
    rcases hNode.source hReached with ⟨info, i, hInfo, hDefined, -⟩
    exact ⟨info, _, i, _, hInfo, hDefined, op_eq_ok_iff.mp hNode.found, .inr hNode.kind⟩

/- An operation whose result gives way when it folds. -/
def Forwards (op : Operation) : Prop := op.kind = .convert ∨ op.kind = .boxAddr

theorem Forwards.not_computes (hForwards : Forwards op) :
    op.kind ≠ .constant ∧ op.kind.isIntBinary ≠ true := by
  rcases hForwards with hKind | hKind
  all_goals
    rw [hKind]
    exact ⟨nofun, nofun⟩

----
-- Folds of trees
----

/-
  What folding has made of the trees of a module: their
  constants are as before, and an operation is as before, or has
  become a constant that is right for the width, or is gone. What
  is gone has been forwarded, or was inside what has been.
-/
structure Tracks (t : Ty) (width : UInt32) (m m' : Module) : Prop where
  reached : m'.Reached
  shrinks : m.Shrinks m'
  constants : ∀ (d : OpId) (op op' : Operation), m.ops[d.index]? = some op → op.kind = .constant →
      m'.ops[d.index]? = some op' → op'.kind = .constant ∧ op'.attrs = op.attrs
  nodes : ∀ o op l r v a c, m.Combines t o op l r v → m.Worth t l a → m.Worth t r c →
      m'.ops[o.index]? = none ∨ m'.ops[o.index]? = some op ∨
        ∃ word : Int64, m'.ops[o.index]? = some (op.settle (.int word)) ∧
          word.toInt ≡ exactArith op.kind a c [ZMOD 2 ^ width.toNat] ∧ InWidth width word.toInt
  lost : ∀ (p : OpId) (op : Operation), m.ops[p.index]? = some op → m'.ops[p.index]? = none →
      Forwards op ∨ ∃ q outer, m.ops[q.index]? = some outer ∧ Forwards outer ∧
        m'.ops[q.index]? = none ∧ m.Inside q p

namespace Tracks

theorem refl (hReached : m.Reached) : Tracks t width m m where
  reached := hReached
  shrinks := .refl m
  constants := by
    intro d op op' hOp hKind hOp'
    cases hOp.symm.trans hOp'
    exact ⟨hKind, rfl⟩
  nodes := fun _ _ _ _ _ _ _ hNode _ _ => .inr (.inl (op_eq_ok_iff.mp hNode.found))
  lost := by
    intro p op hOp hNone
    rw [hNone] at hOp
    cases hOp

section

variable (hReached : m.Reached) (hTracks : Tracks t width m m')
include hReached hTracks

/- A constant in the place of a tree is right for the width. -/
theorem word_modEq (hWorth : m.Worth t v a) (hFinds : Finds (m'.constantOf v) (.int x)) :
    x.toInt ≡ a [ZMOD 2 ^ width.toNat] := by
  rcases finds_constantOf.mp hFinds with ⟨info', d, i, now, hInfo', hDefined', hNow, hKind, hValue⟩
  rcases hTracks.shrinks.sources _ info' hInfo' with ⟨info, hInfo, hSame⟩
  rw [hDefined'] at hSame
  have hNow' := op_eq_ok_iff.mp hNow
  cases hWorth with
  | constant hWord =>
    rcases finds_constantOf.mp hWord.1 with ⟨found, e, j, op, hFound, hDefined, hOp, hBefore, hAttr⟩
    cases hInfo.symm.trans hFound
    cases hSame.trans hDefined
    have hAttrs := (hTracks.constants d op now (op_eq_ok_iff.mp hOp) hBefore hNow').2
    rw [attr?, hAttrs] at hValue
    cases hAttr.symm.trans hValue
    rfl
  | arith hNode hLeft hRight =>
    rcases hNode.source hReached with ⟨found, j, hFound, hDefined, -⟩
    cases hInfo.symm.trans hFound
    cases hSame.trans hDefined
    rcases hTracks.nodes _ _ _ _ _ _ _ hNode hLeft hRight with hNone | hBefore | ⟨word, hWord, hMod, -⟩
    · rw [hNow'] at hNone
      cases hNone
    · cases hNow'.symm.trans hBefore
      have hArith := hNode.kind
      rw [hKind] at hArith
      cases hArith
    · cases hNow'.symm.trans hWord
      cases hValue
      exact hMod

/- The result of what is forwarded is not that of a tree. -/
theorem not_forwarded (hOuter : m'.op q = .ok outer)
    (hForwards : Forwards outer) (hResults : outer.results = [s]) (hWorth : m.Worth t v a) :
    v ≠ s := by
  rintro rfl
  have hDefined := hTracks.reached.definitionsKept.results _ outer (op_eq_ok_iff.mp hOuter) 0 v
    (by rw [hResults]; rfl)
  rcases Option.map_eq_some_iff.mp hDefined with ⟨info', hInfo', hHere⟩
  rcases hTracks.shrinks.sources _ info' hInfo' with ⟨info, hInfo, hSame⟩
  rcases hWorth.source hReached with ⟨found, d, i, op, hFound, hThere, hOp, hKind⟩
  cases hInfo.symm.trans hFound
  rw [hHere, hThere] at hSame
  cases hSame
  rcases hTracks.shrinks.ops _ outer (op_eq_ok_iff.mp hOuter) with ⟨before, hBefore, hSame⟩
  cases hOp.symm.trans hBefore
  have hNot := hForwards.not_computes
  rcases hSame with hSame | hSame
  · rw [hSame] at hNot
    exact hKind.elim hNot.1 hNot.2
  · exact hNot.1 hSame

variable (hWidth : wordWidth? t = some width) (hSome : 1 ≤ width.toNat) (hWord : width.toNat ≤ 64)
include hWidth hSome hWord

/- An operation of a tree folds to what is right for the width. -/
theorem word_of_fold (hNode : m.Combines t o op l r v) (hLeft : m.Worth t l a)
    (hRight : m.Worth t r c) (hOp : m'.op o = .ok op)
    (hFold : m'.fold? o = .ok (some (.constant value))) :
    ∃ word : Int64, value = .int word ∧
      word.toInt ≡ exactArith op.kind a c [ZMOD 2 ^ width.toNat] ∧ InWidth width word.toInt := by
  rw [fold?_of_isIntBinary hOp hNode.kind] at hFold
  rcases finds_foldInt.mp hFold with ⟨l', r', x, y, v', t', width', word, hValue, hOperands,
    hFirst, hSecond, hResults, hType, hWidth', hCut⟩
  cases hNode.operands.symm.trans hOperands
  cases hNode.results.symm.trans hResults
  -- the type of the result is the one of the tree
  rcases typeOf_eq_ok_iff.mp hType with ⟨info', hInfo', rfl⟩
  rcases hTracks.shrinks.types _ info' hInfo' with ⟨info, hInfo, hSame⟩
  rcases typeOf_eq_ok_iff.mp hNode.type with ⟨found, hFound, rfl⟩
  cases hInfo.symm.trans hFound
  rw [hSame, hWidth, Option.some.injEq] at hWidth'
  subst hWidth'
  rcases truncateWord_spec (intArith op.kind x y) hSome hWord with ⟨cut, hSpec, hMod, hIn⟩
  cases hCut.symm.trans hSpec
  refine ⟨word, (Folded.constant.inj hValue), ?_, hIn⟩
  have hDvd : (2 : Int) ^ width.toNat ∣ ((2 ^ 64 : Nat) : Int) := by
    exact_mod_cast Nat.pow_dvd_pow 2 hWord
  calc word.toInt
    _ ≡ (intArith op.kind x y).toInt [ZMOD 2 ^ width.toNat] := hMod
    _ ≡ exactArith op.kind x.toInt y.toInt [ZMOD 2 ^ width.toNat] := by
      rw [toInt_intArith]
      exact (bmod_modEq _ _).of_dvd hDvd
    _ ≡ exactArith op.kind a c [ZMOD 2 ^ width.toNat] :=
      exactArith_modEq op.kind (hTracks.word_modEq hReached hLeft hFirst)
        (hTracks.word_modEq hReached hRight hSecond)

theorem replaceWithConstant (hOp : m'.op o = .ok op)
    (hOpen : op.kind ≠ .constant) (hFold : m'.fold? o = .ok (some (.constant value)))
    (hRun : Module.replaceWithConstant o value m' = .ok () m₂) : Tracks t width m m₂ := by
  rcases replaceWithConstant_ops hRun with ⟨hShrinks, ⟨found, hFound, hHere⟩, hOthers⟩
  cases (op_eq_ok_iff.mp hOp).symm.trans hFound
  refine
    { reached := hTracks.reached.change (.replaceWithConstant o value) hRun
      shrinks := hTracks.shrinks.trans hShrinks
      constants := ?_
      nodes := ?_
      lost := ?_ }
  · intro d before after hBefore hKind hAfter
    by_cases hSame : d = o
    · subst hSame
      exact absurd (hTracks.constants d before _ hBefore hKind hFound).1 hOpen
    · exact hTracks.constants d before after hBefore hKind ((hOthers d hSame).symm.trans hAfter)
  · intro p node l r v a c hNode hLeft hRight
    by_cases hSame : p = o
    · subst hSame
      rcases hTracks.nodes _ _ _ _ _ _ _ hNode hLeft hRight with hNone | hBefore | ⟨word, hSettled, -⟩
      · rw [hFound] at hNone
        cases hNone
      · cases hFound.symm.trans hBefore
        rcases hTracks.word_of_fold hReached hWidth hSome hWord hNode hLeft hRight hOp hFold with
          ⟨word, rfl, hRight⟩
        exact .inr (.inr ⟨word, hHere, hRight⟩)
      · cases hFound.symm.trans hSettled
        exact absurd rfl hOpen
    · rw [hOthers p hSame]
      exact hTracks.nodes p node l r v a c hNode hLeft hRight
  · intro p before hBefore hNone
    by_cases hSame : p = o
    · rw [hSame, hHere] at hNone
      cases hNone
    · rw [hOthers p hSame] at hNone
      refine (hTracks.lost p before hBefore hNone).imp id ?_
      rintro ⟨q, outer, hOuter, hForwards, hGone, hInside⟩
      exact ⟨q, outer, hOuter, hForwards, hShrinks.none_after hGone, hInside⟩

omit hWidth hSome hWord in
theorem forward (hOp : m'.op o = .ok op)
    (hForwards : Forwards op) (hResults : op.results = [s])
    (hReplace : Module.replaceAllUses s w m' = .ok () m₁)
    (hRemove : removeOp o m₁ = .ok removed m₂) : Tracks t width m m₂ := by
  rcases replaceAllUses_redirects hTracks.reached.usersKept hReplace with
    ⟨ops, values, hModule, hOps, -⟩
  have hRedirect : ∀ p : OpId, m₁.ops[p.index]? =
      m'.ops[p.index]?.map (redirect (replaced s w)) := hModule ▸ fun p => hOps p.index
  have hShrinks := (replaceAllUses_ops hReplace).1
  rcases removeOp_shrinks hRemove with ⟨gone, hSelf, hNested, hErases, hFewer⟩
  have hBefore : ∀ (p : OpId) (after : Operation), m₂.ops[p.index]? = some after →
      ∃ before, m'.ops[p.index]? = some before ∧ after = before.redirect (replaced s w) := by
    intro p after hAfter
    have hMiddle := (hErases.some_iff.mp hAfter).1
    rw [hRedirect, Option.map_eq_some_iff] at hMiddle
    rcases hMiddle with ⟨before, hFound, rfl⟩
    exact ⟨before, hFound, rfl⟩
  refine
    { reached := (hTracks.reached.change (.replaceAllUses s w) hReplace).change (.removeOp o)
        (bind_of_ok hRemove rfl)
      shrinks := hTracks.shrinks.trans (hShrinks.trans hFewer)
      constants := ?_
      nodes := ?_
      lost := ?_ }
  · intro d first after hFirst hKind hAfter
    rcases hBefore d after hAfter with ⟨before, hFound, rfl⟩
    exact hTracks.constants d first before hFirst hKind hFound
  · intro p node l r v a c hNode hLeft' hRight
    cases hAfter : m₂.ops[p.index]? with
    | none => exact .inl rfl
    | some after =>
      rcases hBefore p after hAfter with ⟨before, hFound, rfl⟩
      refine .inr ((hTracks.nodes _ _ _ _ _ _ _ hNode hLeft' hRight).elim (fun hNone => ?_) ?_)
      · rw [hFound] at hNone
        cases hNone
      · rintro (hSame | ⟨word, hSettled, hWord⟩)
        · cases hFound.symm.trans hSame
          refine .inl (congrArg some (redirect_of_unchanged fun u hIn => ?_))
          rw [hNode.operands, List.mem_pair] at hIn
          refine if_neg ?_
          rcases hIn with rfl | rfl
          · exact hTracks.not_forwarded hReached hOp hForwards hResults hLeft'
          · exact hTracks.not_forwarded hReached hOp hForwards hResults hRight
        · cases hFound.symm.trans hSettled
          exact .inr ⟨word, congrArg some (redirect_of_unchanged nofun), hWord⟩
  · intro p first hFirst hNone
    cases hFound : m'.ops[p.index]? with
    | none =>
      refine (hTracks.lost p first hFirst hFound).imp id ?_
      rintro ⟨q, outer, hOuter, hKind, hLost, hInside⟩
      exact ⟨q, outer, hOuter, hKind, (hShrinks.trans hFewer).none_after hLost, hInside⟩
    | some before =>
      rcases hTracks.shrinks.ops _ op (op_eq_ok_iff.mp hOp) with ⟨outer, hOuter, hSame⟩
      have hKind : Forwards outer := by
        rcases hSame with hSame | hSame
        · unfold Forwards
          rw [← hSame]
          exact hForwards
        · exact absurd hSame hForwards.not_computes.1
      by_cases hLost : p ∈ gone
      · rcases hNested p hLost with rfl | hInside
        · cases hFirst.symm.trans hOuter
          exact .inl hKind
        · refine .inr ⟨o, outer, hOuter, hKind, (hErases o.index).1 hSelf, ?_⟩
          exact Relation.TransGen.mono (hTracks.shrinks.trans hShrinks).within _ _ hInside
      · rw [(hErases p.index).2 hLost, hRedirect, hFound] at hNone
        cases hNone

/- A fold keeps track of the trees. -/
theorem foldOp (hRun : Module.foldOp o m' = .ok changed m₂) :
    Tracks t width m m₂ := by
  rcases foldOp_eq_ok hRun with ⟨-, rfl, -⟩ | ⟨-, op, hOp, hOpen, hStep⟩
  · exact hTracks
  · rcases hStep with ⟨value, hFold, hReplace⟩ |
        ⟨w, s, m₁, removed, hFold, hResults, hReplace, hRemove⟩
    · exact hTracks.replaceWithConstant hReached hWidth hSome hWord hOp hOpen hFold hReplace
    · have hForwards : Forwards op := (fold?_eq_value hOp hFold).imp And.left And.left
      exact hTracks.forward hReached hOp hForwards hResults hReplace hRemove

end

end Tracks

----
-- Trees that are folded
----

theorem value_of_constantOf (hRun : (m.constantOf v).run = .ok found) :
    ∃ info, m.values[v.index]? = some info := by
  cases hInfo : m.values[v.index]? with
  | some info => exact ⟨info, rfl⟩
  | none =>
    have hMissing : m.definingOp? v = .error .missingValue := by
      simp only [definingOp?, value, hInfo]
      rfl
    unfold constantOf definedBy at hRun
    rw [hMissing] at hRun
    cases hRun

theorem Fold.run_of_bind (hRun : (x >>= f).run = .ok b) : ∃ a, x.run = .ok a := by
  rcases x with fault | a
  · cases hRun
  · exact ⟨a, rfl⟩

theorem Fold.run_bind_of_finds (hFinds : Finds x a) : (x >>= f).run = (f a).run := by
  rcases x with fault | (_ | b)
  · cases hFinds
  · cases hFinds
  · cases hFinds
    rfl

/- Arithmetic that does not fold has found its operands. -/
theorem values_of_foldInt (hOperands : op.operands = [l, r])
    (hRun : (m.foldInt op).run = .ok found) : (∃ info, m.values[l.index]? = some info) ∧
      ∀ x, Finds (m.constantOf l) (.int x) → ∃ info, m.values[r.index]? = some info := by
  rcases Fold.run_of_bind hRun with ⟨pair, hPair⟩
  unfold constantPair at hPair
  rw [hOperands] at hPair
  refine ⟨?_, fun x hFinds => ?_⟩
  · rcases Fold.run_of_bind hPair with ⟨value, hValue⟩
    exact value_of_constantOf hValue
  · have hGiven : Finds (Fold.given (Attr.int x).int?) x := Fold.finds_given.mpr rfl
    rw [Fold.run_bind_of_finds hFinds, Fold.run_bind_of_finds hGiven] at hPair
    rcases Fold.run_of_bind hPair with ⟨value, hValue⟩
    exact value_of_constantOf hValue

namespace Tracks

variable (hReached : m.Reached) (hTracks : Tracks t width m m')
variable (hWidth : wordWidth? t = some width) (hSome : 1 ≤ width.toNat) (hWord : width.toNat ≤ 64)
variable (hDone : ∀ p, m'.Live p → m'.fold? p = .ok none)
include hReached hTracks hWidth hSome hWord hDone

/- If nothing folds, no operation with constant operands is left. -/
theorem not_left (hNode : m.Combines t o op l r v)
    (hLeft : ∀ info, m'.values[l.index]? = some info → ∃ x, Finds (m'.constantOf l) (.int x))
    (hRight : ∀ info, m'.values[r.index]? = some info → ∃ x, Finds (m'.constantOf r) (.int x)) :
    m'.ops[o.index]? ≠ some op := by
  intro hOp
  have hFold := hDone o (hTracks.shrinks.live_after hReached hTracks.reached hOp hNode.live)
  rw [fold?_of_isIntBinary (op_eq_ok_iff.mpr hOp) hNode.kind] at hFold
  rcases values_of_foldInt hNode.operands hFold with ⟨⟨info, hInfo⟩, hNext⟩
  rcases hLeft info hInfo with ⟨x, hX⟩
  rcases hNext x hX with ⟨other, hOther⟩
  rcases hRight other hOther with ⟨y, hY⟩
  have hDefined := hTracks.reached.definitionsKept.results _ op hOp 0 v (by rw [hNode.results]; rfl)
  rcases Option.map_eq_some_iff.mp hDefined with ⟨now, hNow, -⟩
  rcases hTracks.shrinks.types _ now hNow with ⟨before, hBefore, hSame⟩
  rcases typeOf_eq_ok_iff.mp hNode.type with ⟨found, hFound, rfl⟩
  cases hBefore.symm.trans hFound
  rcases truncateWord_spec (intArith op.kind x y) hSome hWord with ⟨word, hCut, -⟩
  have hFinds : Finds (m'.foldInt op) (.constant (.int word)) :=
    finds_foldInt.mpr ⟨l, r, x, y, v, before.type, width, word, rfl, hNode.operands, hX, hY,
      hNode.results, typeOf_eq_ok_iff.mpr ⟨now, hNow, hSame⟩, hWidth, hCut⟩
  rw [Finds, hFold] at hFinds
  cases hFinds

/- If nothing folds, every tree that is left is a constant. -/
theorem finds_of_worth (hWorth : m.Worth t v a)
    (hInfo : m'.values[v.index]? = some info) : ∃ x, Finds (m'.constantOf v) (.int x) := by
  induction hWorth generalizing info with
  | @constant v x hWordAt =>
    rcases finds_constantOf.mp hWordAt.1 with
      ⟨before, d, i, op, hBefore, hDefined, hOp, hKind, hValue⟩
    rcases hTracks.shrinks.sources _ info hInfo with ⟨found, hFound, hSame⟩
    cases hBefore.symm.trans hFound
    rw [hDefined] at hSame
    rcases hTracks.reached.ownersKept.results _ info hInfo d i hSame with ⟨now, hNow, -⟩
    rcases hTracks.constants d op now (op_eq_ok_iff.mp hOp) hKind hNow with ⟨hKind', hAttrs⟩
    refine ⟨x, finds_constantOf.mpr ⟨info, d, i, now, hInfo, hSame, op_eq_ok_iff.mpr hNow, hKind', ?_⟩⟩
    rw [attr?, hAttrs]
    exact hValue
  | arith hNode hLeft hRight ihLeft ihRight =>
    rcases hNode.source hReached with ⟨before, i, hBefore, hDefined, -⟩
    rcases hTracks.shrinks.sources _ info hInfo with ⟨found, hFound, hSame⟩
    cases hBefore.symm.trans hFound
    rw [hDefined] at hSame
    rcases hTracks.reached.ownersKept.results _ info hInfo _ i hSame with ⟨now, hNow, -⟩
    rcases hTracks.nodes _ _ _ _ _ _ _ hNode hLeft hRight with hNone | hLeftOver | ⟨word, hSettled, -⟩
    · rw [hNow] at hNone
      cases hNone
    · exact absurd hLeftOver (hTracks.not_left hReached hWidth hSome hWord hDone hNode
        (fun _ => ihLeft) fun _ => ihRight)
    · exact ⟨word, finds_constantOf.mpr ⟨info, _, i, _, hInfo, hSame,
        op_eq_ok_iff.mpr hSettled, rfl, rfl⟩⟩

end Tracks

/-
  After folding, the root of a tree of arithmetic over constants
  is a constant: the exact value of the tree, up to a multiple of
  the number of words of the width, in the range of the width. Or
  it is gone, as it was inside a conversion or an address that
  has been folded away.
-/
theorem Reached.foldAll_worth {n : Nat} (hReached : m.Reached) (hRun : foldAll m = .ok n m')
    (hWidth : wordWidth? t = some width) (hSome : 1 ≤ width.toNat) (hWord : width.toNat ≤ 64)
    (hNode : m.Combines t o op l r v) (hLeft : m.Worth t l a) (hRight : m.Worth t r c) :
    (∃ (now : Operation) (word : Int64), m'.op o = .ok now ∧ now.kind = .constant ∧
      now.attr? "value" = some (.int word) ∧
      word.toInt ≡ exactArith op.kind a c [ZMOD 2 ^ width.toNat] ∧ InWidth width word.toInt) ∨
    m'.ops[o.index]? = none ∧ ∃ p outer, m.op p = .ok outer ∧ Forwards outer ∧ m.Inside p o ∧
      m'.ops[p.index]? = none := by
  have hTracks : Tracks t width m m' := by
    refine (hReached.foldRounds_induction (fun p m₁ changed m₂ _ _ hStep hTracks => ?_) hRun
      (.refl hReached)).2
    exact hTracks.foldOp hReached hWidth hSome hWord hStep
  have hDone : ∀ p, m'.Live p → m'.fold? p = .ok none := by
    have hEnough := Nat.lt_succ_of_le m.card_openOps_le
    rcases (foldOnce_settled (foldRounds_settles hEnough hRun)).1 with ⟨walked, hWalk, hNone⟩
    exact fun p hLive => hNone p ((mem_walk_iff_live hWalk).mpr hLive)
  rcases hTracks.nodes _ _ _ _ _ _ _ hNode hLeft hRight with
    hNone | hLeftOver | ⟨word, hSettled, hMod, hIn⟩
  · refine .inr ⟨hNone, ?_⟩
    rcases hTracks.lost o op (op_eq_ok_iff.mp hNode.found) hNone with
      hForwards | ⟨q, outer, hOuter, hForwards, hGone, hInside⟩
    · exact absurd hNode.kind hForwards.not_computes.2
    · exact ⟨q, outer, op_eq_ok_iff.mpr hOuter, hForwards, hInside, hGone⟩
  · refine absurd hLeftOver (hTracks.not_left hReached hWidth hSome hWord hDone hNode ?_ ?_)
    · exact fun _ => hTracks.finds_of_worth hReached hWidth hSome hWord hDone hLeft
    · exact fun _ => hTracks.finds_of_worth hReached hWidth hSome hWord hDone hRight
  · exact .inl ⟨_, word, op_eq_ok_iff.mpr hSettled, rfl, rfl, hMod, hIn⟩

/-
  A function with a product of a sum, and with a difference in a
  region of a conversion that folds to its operand.
-/
def computesAround : List Change := [.newOp .func [] [] (.ofList [("sym_name", .str "f"),
        ("type", .type (.function [.integer 8] []))]) 1 [], .newBlock ⟨0⟩ [.integer 8],
    .newOp .constant [] [.integer 8] (.ofList [("value", .int 200)]) 0 [], .appendOp ⟨0⟩ ⟨1⟩,
    .newOp .addI [⟨1⟩, ⟨1⟩] [.integer 8] {} 0 [], .appendOp ⟨0⟩ ⟨2⟩,
    .newOp .mulI [⟨2⟩, ⟨1⟩] [.integer 8] {} 0 [], .appendOp ⟨0⟩ ⟨3⟩,
    .newOp .convert [⟨0⟩] [.integer 8] {} 1 [], .appendOp ⟨0⟩ ⟨4⟩, .newBlock ⟨1⟩ [],
    .newOp .subI [⟨1⟩, ⟨1⟩] [.integer 8] {} 0 [], .appendOp ⟨1⟩ ⟨5⟩, .newOp .ret [] [] {} 0 [],
    .appendOp ⟨0⟩ ⟨6⟩, .pushTop ⟨0⟩]

/- The operation is of a kind and computes a value from two others. -/
def CombinesAs (m : Module) (t : Ty) (o : OpId) (kind : OpKind) (l r v : ValueId) : Prop :=
  ∃ op ∈ m.ops[o.index]?, op.kind = kind ∧ op.operands = [l, r] ∧ op.results = [v] ∧
    m.typeOf v = .ok t

instance {kind : OpKind} : Decidable (m.CombinesAs t o kind l r v) :=
  inferInstanceAs (Decidable (∃ op ∈ _, _))

theorem combines_of_walk {kind : OpKind} (hKind : kind.isIntBinary = true)
    (hWalk : m.walk = .ok walked) (hIn : o ∈ walked) (hFound : m.CombinesAs t o kind l r v) :
    ∃ op, m.Combines t o op l r v ∧ op.kind = kind := by
  rcases hFound with ⟨op, hOp, rfl, hOperands, hResults, hType⟩
  exact ⟨op, ⟨(mem_walk_iff_live hWalk).mp hIn, op_eq_ok_iff.mpr hOp, hKind, hOperands, hResults,
    hType⟩, rfl⟩

theorem exists_computesAround : ∃ m m' n sum product difference, m.Reached ∧
      Answers (verify {} m) () ∧ foldAll m = .ok n m' ∧ m.IsWord ⟨1⟩ (.integer 8) 200 ∧
      (m.Combines (.integer 8) ⟨2⟩ sum ⟨1⟩ ⟨1⟩ ⟨2⟩ ∧ sum.kind = .addI) ∧
      (m.Combines (.integer 8) ⟨3⟩ product ⟨2⟩ ⟨1⟩ ⟨3⟩ ∧ product.kind = .mulI) ∧
      (m.Combines (.integer 8) ⟨5⟩ difference ⟨1⟩ ⟨1⟩ ⟨5⟩ ∧ difference.kind = .subI) ∧
      m'.ops[3]?.isSome ∧ m'.ops[5]? = none := by
  have hFolds : ∃ m ∈ (emptyAfter {}).after computesAround, Succeeds foldAll m fun _ m' =>
        Answers (verify {} m) () ∧ m.IsWord ⟨1⟩ (.integer 8) 200 ∧
        m.walk = .ok [⟨0⟩, ⟨1⟩, ⟨2⟩, ⟨3⟩, ⟨4⟩, ⟨5⟩, ⟨6⟩] ∧
        m.CombinesAs (.integer 8) ⟨2⟩ .addI ⟨1⟩ ⟨1⟩ ⟨2⟩ ∧
        m.CombinesAs (.integer 8) ⟨3⟩ .mulI ⟨2⟩ ⟨1⟩ ⟨3⟩ ∧
        m.CombinesAs (.integer 8) ⟨5⟩ .subI ⟨1⟩ ⟨1⟩ ⟨5⟩ ∧
        m'.ops[3]?.isSome ∧ m'.ops[5]? = none := by decide +kernel
  rcases exists_folded hFolds with ⟨m, n, m', hReached, hRun, hVerify, hConstant, hWalk,
    hSum, hProduct, hDifference, hLeft, hGone⟩
  rcases combines_of_walk rfl hWalk (by simp) hSum with ⟨sum, hSum⟩
  rcases combines_of_walk rfl hWalk (by simp) hProduct with ⟨product, hProduct⟩
  rcases combines_of_walk rfl hWalk (by simp) hDifference with ⟨difference, hDifference⟩
  exact ⟨m, m', n, sum, product, difference, hReached, hVerify, hRun, hConstant,
    hSum, hProduct, hDifference, hLeft, hGone⟩

/- The product of 400 and 200 is -128 as a byte. -/
theorem Reached.foldAll_worth_computesAround : ∃ m m' n, m.Reached ∧ foldAll m = .ok n m' ∧
      ∃ (now : Operation) (word : Int64), m'.op ⟨3⟩ = .ok now ∧ now.kind = .constant ∧
        now.attr? "value" = some (.int word) ∧ word.toInt ≡ 80000 [ZMOD 2 ^ 8] := by
  rcases exists_computesAround with
    ⟨m, m', n, sum, product, -, hReached, -, hRun, hWord, hSum, hProduct, -, hLeft, -⟩
  have hOperand : m.Worth (.integer 8) ⟨2⟩ (exactArith sum.kind 200 200) :=
    .arith hSum.1 (.constant hWord) (.constant hWord)
  rcases hReached.foldAll_worth hRun (show wordWidth? (.integer 8) = some 8 from rfl) (by decide)
    (by decide) hProduct.1 hOperand (.constant hWord) with ⟨now, word, hNow, hKind, hValue, hMod, -⟩ | ⟨hNone, -⟩
  · rw [hSum.2, hProduct.2] at hMod
    exact ⟨m, m', n, hReached, hRun, now, word, hNow, hKind, hValue, hMod⟩
  · rw [hNone] at hLeft
    cases hLeft

/- A tree in a conversion may be gone after folding. -/
theorem foldAll_loses_tree : ∃ m m' n, m.Reached ∧ Answers (verify {} m) () ∧
      foldAll m = .ok n m' ∧ (∃ op l r v, m.Combines (.integer 8) ⟨5⟩ op l r v ∧
        m.Worth (.integer 8) l 200 ∧ m.Worth (.integer 8) r 200) ∧ m'.ops[5]? = none := by
  rcases exists_computesAround with
    ⟨m, m', n, -, -, op, hReached, hVerify, hRun, hWord, -, -, hDifference, -, hGone⟩
  exact ⟨m, m', n, hReached, hVerify, hRun,
    ⟨op, ⟨1⟩, ⟨1⟩, ⟨5⟩, hDifference.1, .constant hWord, .constant hWord⟩, hGone⟩

end Module

end FortranIR
