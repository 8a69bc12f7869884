import FortranIR.Pass
import FortranIR.Proofs.Folding.Results

/-
  This file states what the rounds of folding do to the
  operations of a module, and proves that they go on until one
  of them changes nothing.

  Every fold takes an operation away from those that are not
  constants, so the folds are as many as the operations they
  took away, and there are enough rounds for all of them.

  Main declarations:
    * `Module.Shrinks`
    * `Module.foldAll_reaches_fixpoint`
-/

namespace FortranIR

open Operation

variable {n rounds k : Nat} {changed : Bool} {m₁ m₂ m₃ : Module}

namespace Module

variable {m m' : Module} {o : OpId}

----
-- Folds
----

/-
  A fold changes nothing, as nothing folds, or it changes the
  operation and what uses it.
-/
theorem foldOp_eq_ok (hRun : foldOp o m = .ok changed m') :
    changed = false ∧ m' = m ∧ (∀ op, m.op o = .ok op → m.fold? o = .ok none) ∨
      changed = true ∧ ∃ op, m.op o = .ok op ∧ op.kind ≠ .constant ∧
        ((∃ value, m.fold? o = .ok (some (.constant value)) ∧
          replaceWithConstant o value m = .ok () m') ∨
        ∃ v r m₁ removed, m.fold? o = .ok (some (.value v)) ∧ op.results = [r] ∧
          replaceAllUses r v m = .ok () m₁ ∧ removeOp o m₁ = .ok removed m') := by
  rcases bind_eq_ok hRun with ⟨_, _, hGet, hRest⟩
  cases hGet
  by_cases hContains : m.containsOp o = true
  · simp only [hContains, Bool.not_true, Bool.false_eq_true, if_false] at hRest
    rcases read_bind_eq_ok_iff.mp hRest with ⟨op, hOp, hRest⟩
    by_cases hKind : op.kind = .constant
    · rw [if_pos hKind] at hRest
      cases hRest
      exact .inl ⟨rfl, rfl, fun _ _ => by simp [fold?, hOp, hKind, bind, Except.bind]; rfl⟩
    · rw [if_neg hKind] at hRest
      rcases read_bind_eq_ok_iff.mp hRest with ⟨folded, hFold, hRest⟩
      cases folded with
      | none =>
        cases hRest
        exact .inl ⟨rfl, rfl, fun _ _ => hFold⟩
      | some folded =>
        cases folded with
        | constant value =>
          rcases bind_eq_ok hRest with ⟨_, m₁, hReplace, hDone⟩
          cases hDone
          exact .inr ⟨rfl, op, hOp, hKind, .inl ⟨value, hFold, hReplace⟩⟩
        | value v =>
          rcases read_bind_eq_ok_iff.mp hRest with ⟨found, hFound, hRest⟩
          cases hOp.symm.trans hFound
          rcases read_bind_eq_ok_iff.mp hRest with ⟨r, hResult, hRest⟩
          rcases bind_eq_ok hRest with ⟨_, m₁, hReplace, hRest⟩
          rcases bind_eq_ok hRest with ⟨removed, m₂, hRemove, hDone⟩
          cases hDone
          exact .inr ⟨rfl, op, hOp, hKind, .inr ⟨v, r, m₁, removed,
            hFold, result_eq_ok_iff.mp hResult, hReplace, hRemove⟩⟩
  · simp only [hContains, Bool.not_false, if_true] at hRest
    cases hRest
    refine .inl ⟨rfl, rfl, fun op hOp => absurd ?_ hContains⟩
    rw [containsOp, Std.TreeMap.contains_eq_isSome_getElem?, op_eq_ok_iff.mp hOp]
    rfl

----
-- Operations that are left
----

/-
  No operation is new or changes its kind, but that it may
  become a constant, and none is within another one that was not
  before. What is left stays where it is, and values stay what
  they are.
-/
structure Shrinks (m m' : Module) : Prop extends Stays m m' where
  ops : ∀ (k : Nat) (op' : Operation), m'.ops[k]? = some op' →
      ∃ op : Operation, m.ops[k]? = some op ∧ (op'.kind = op.kind ∨ op'.kind = .constant)
  within : ∀ p q, m'.Within p q → m.Within p q
  types : Remains ValueInfo.type m.values m'.values
  sources : Remains ValueInfo.defined m.values m'.values

namespace Shrinks

theorem refl (m : Module) : m.Shrinks m where
  ops := fun _ op hOp => ⟨op, hOp, .inl rfl⟩
  within := fun _ _ hWithin => hWithin
  top := fun _ hTop => .inl hTop
  places := fun _ _ _ => rfl
  homes := .refl _ _
  parents := .refl _ _
  types := .refl _ _
  sources := .refl _ _

theorem none_after (hShrinks : m.Shrinks m') (hNone : m.ops[k]? = none) : m'.ops[k]? = none := by
  cases hOp' : m'.ops[k]? with
  | none => rfl
  | some op' =>
    rcases hShrinks.ops k op' hOp' with ⟨op, hOp, -⟩
    rw [hNone] at hOp
    cases hOp

theorem trans (hFirst : m₁.Shrinks m₂) (hSecond : m₂.Shrinks m₃) :
    m₁.Shrinks m₃ where
  ops := by
    intro k op₃ hOp₃
    rcases hSecond.ops k op₃ hOp₃ with ⟨op₂, hOp₂, hKind₂⟩
    rcases hFirst.ops k op₂ hOp₂ with ⟨op₁, hOp₁, hKind₁⟩
    refine ⟨op₁, hOp₁, ?_⟩
    rcases hKind₂ with hSame | hConstant
    · rw [hSame]
      exact hKind₁
    · exact .inr hConstant
  within := fun p q hWithin => hFirst.within p q (hSecond.within p q hWithin)
  top := by
    intro p hTop
    rcases hFirst.top p hTop with hTop₂ | ⟨hSome, hGone⟩
    · rcases hSecond.top p hTop₂ with hTop₃ | ⟨⟨op₂, hOp₂⟩, hGone⟩
      · exact .inl hTop₃
      · rcases hFirst.ops _ op₂ hOp₂ with ⟨op, hOp, -⟩
        exact .inr ⟨⟨op, hOp⟩, hGone⟩
    · exact .inr ⟨hSome, hSecond.none_after hGone⟩
  places := by
    intro o op₃ hOp₃
    rcases hSecond.ops _ op₃ hOp₃ with ⟨op₂, hOp₂, -⟩
    exact (hSecond.places o op₃ hOp₃).trans (hFirst.places o op₂ hOp₂)
  homes := hFirst.homes.trans hSecond.homes
  parents := hFirst.parents.trans hSecond.parents
  types := hFirst.types.trans hSecond.types
  sources := hFirst.sources.trans hSecond.sources

/- Operations are changed in place, and of values and blocks the users. -/
theorem of_kept (hOps : ∀ (k : Nat) (op' : Operation), m'.ops[k]? = some op' →
      ∃ op : Operation, m.ops[k]? = some op ∧ (op'.kind = op.kind ∨ op'.kind = .constant) ∧
        op.regions = op'.regions)
    (hTop : m'.top = m.top) (hPlaces : m'.places = m.places) (hRegions : m'.regions = m.regions)
    (hBlocks : ∀ k : Nat, m'.blocks[k]?.map BlockInfo.region = m.blocks[k]?.map BlockInfo.region)
    (hValues : ∀ k : Nat, (m'.values[k]?.map fun info => (info.type, info.defined)) =
          m.values[k]?.map fun info => (info.type, info.defined)) : m.Shrinks m' := by
  have hSources : Remains (fun info => (info.type, info.defined)) m.values m'.values := .of_map hValues
  exact
    { ops := by
        intro k op' hOp'
        rcases hOps k op' hOp' with ⟨op, hOp, hKind, -⟩
        exact ⟨op, hOp, hKind⟩
      within := by
        intro p q hWithin
        refine Within.before (m := m) (fun k op' hOp' => ?_) ?_ (.of_map hBlocks) hWithin
        · rcases hOps k op' hOp' with ⟨op, hOp, -, hSame⟩
          exact ⟨op, hOp, hSame.symm⟩
        · rw [hRegions]
          exact fun k region hRegion =>
            ⟨region, hRegion, rfl, fun _ os hOs => ⟨os, hOs, List.Subset.refl os⟩⟩
      top := fun p hIn => .inl (hTop ▸ hIn)
      places := fun o op' _ => by rw [hPlaces]
      homes := .of_map hBlocks
      parents := hRegions ▸ .refl _ _
      types := hSources.part Prod.fst
      sources := hSources.part Prod.snd }

end Shrinks

theorem Complete.before (hComplete : m'.Complete) (hShrinks : m.Shrinks m') : m.Complete := by
  intro p hTop
  cases hOp : m.ops[p.index]? with
  | some op => exact ⟨op, op_eq_ok_iff.mpr hOp⟩
  | none =>
    rcases hShrinks.top p hTop with hTop' | ⟨⟨op, hSome⟩, -⟩
    · rcases hComplete p hTop' with ⟨op', hOp'⟩
      rw [op_eq_ok_iff, hShrinks.none_after hOp] at hOp'
      cases hOp'
    · rw [hOp] at hSome
      cases hSome

theorem complete_of_walk (hWalk : m.walk = .ok walked) : m.Complete := by
  intro p hTop
  rcases joinWalks_reaches hWalk hTop with ⟨list, hRun, -⟩
  exact exists_of_mem_walkOp hRun (mem_of_walkOp hRun)

/- The operation has been removed or turned into a constant. -/
def Retired (m m' : Module) (o : OpId) : Prop :=
  ∃ op, m.ops[o.index]? = some op ∧ (m'.ops[o.index]? = none ∨ op.kind ≠ .constant ∧
    ∃ op', m'.ops[o.index]? = some op' ∧ op'.kind = .constant)

theorem not_retired_of_kinds
    (hKinds : m'.ops[o.index]?.map kind = m.ops[o.index]?.map kind) :
    ¬ m.Retired m' o := by
  rintro ⟨op, hOp, hGone | ⟨hKind, op', hOp', hConstant⟩⟩
  · simp [hOp, hGone] at hKinds
  · simp only [hOp, hOp', Option.map_some, Option.some.injEq] at hKinds
    exact hKind (hKinds ▸ hConstant)

theorem replaceAllUses_ops (hRun : replaceAllUses old new m = .ok () m') :
    m.Shrinks m' ∧ m'.top = m.top ∧
      ∀ k : Nat, m'.ops[k]?.map kind = m.ops[k]?.map kind := by
  by_cases hDistinct : old = new
  · rw [replaceAllUses, if_pos hDistinct] at hRun
    cases hRun
    exact ⟨.refl _, rfl, fun _ => rfl⟩
  · rcases replaceAllUses_eq_ok hDistinct hRun with ⟨info, ops, values, hInfo, -, rfl, hRedirects⟩
    refine ⟨.of_kept (fun k op' hOp' => ?_) rfl rfl rfl (fun _ => rfl) (hRedirects.sources hInfo),
      rfl, fun k => ?_⟩
    · simp only [hRedirects.1, Option.map_eq_some_iff] at hOp'
      rcases hOp' with ⟨op, hOp, rfl⟩
      refine ⟨op, hOp, ?_⟩
      split <;> exact ⟨.inl rfl, rfl⟩
    · simp only [hRedirects.1, Option.map_map]
      split <;> rfl

/- What is lost is the operation and what was inside it. -/
theorem removeOp_shrinks (hRun : removeOp o m = .ok removed m') :
    ∃ gone : List OpId, o ∈ gone ∧ (∀ p ∈ gone, p = o ∨ m.Inside o p) ∧
      Erases (fun k => ⟨k⟩ ∈ gone) m.ops m'.ops ∧ m.Shrinks m' := by
  rcases removeOp_eq_ok hRun with ⟨m₁, gone, m₂, hUnplace, hWalk, hDrop, hWithout⟩
  rcases dropAllUses_eq_ok hDrop with ⟨values, blocks, rfl, hValues, hBlocks⟩
  have hUnplaces := unplace_unplaces hUnplace
  have hSelf := mem_of_walkOp hWalk
  have hOps : Erases (fun k => ⟨k⟩ ∈ gone) m.ops m'.ops := hUnplaces.ops ▸ hWithout.ops
  have hHomes : Remains BlockInfo.region m.blocks m'.blocks := by
    intro k info' hInfo'
    have hBefore := (hWithout.blocks.some_iff.mp hInfo').1
    simp only [hBlocks k, hUnplaces.blocks, Option.map_eq_some_iff] at hBefore
    rcases hBefore with ⟨info, hInfo, rfl⟩
    exact ⟨info, hInfo, rfl⟩
  have hValue : Remains (fun info => (info.type, info.defined)) m.values m'.values := by
    intro k info' hInfo'
    have hBefore := (hWithout.values.some_iff.mp hInfo').1
    simp only [hValues k, hUnplaces.values, Option.map_eq_some_iff] at hBefore
    rcases hBefore with ⟨info, hInfo, rfl⟩
    exact ⟨info, hInfo, rfl⟩
  have hRegion : ∀ {k : Nat} {region' : RegionInfo}, m'.regions[k]? = some region' →
      m₁.regions[k]? = some region' := fun hRegion' => (hWithout.regions.some_iff.mp hRegion').1
  refine ⟨gone, hSelf, fun p hGone => ?_, hOps,
    { top := fun p hTop => ?_
      places := fun p op' hOp' => ?_
      homes := hHomes
      parents := fun k region' hRegion' => ?_
      ops := fun k op' hOp' => ⟨op', (hOps.some_iff.mp hOp').1, .inl rfl⟩
      within := fun p q => Within.before (fun k op' hOp' =>
        ⟨op', (hOps.some_iff.mp hOp').1, rfl⟩) (fun k region' hRegion' => ?_) hHomes
      types := hValue.part Prod.fst
      sources := hValue.part Prod.snd }⟩
  · have hAbove := (mem_walkOp_iff hWalk).mp hGone
    exact (Relation.reflTransGen_iff_eq_or_transGen.mp hAbove).imp id
      (Relation.TransGen.mono (fun _ _ => within_of_unplaced hUnplace) _ _)
  · rw [hWithout.top]
    rcases hUnplaces.top with ⟨-, hSame⟩ | ⟨-, hErase⟩
    · exact .inl (hSame ▸ hTop)
    · by_cases hRoot : p = o
      · rcases exists_of_mem_walkOp hWalk hSelf with ⟨op, hOp⟩
        exact .inr (hRoot ▸ ⟨⟨op, hUnplaces.ops ▸ op_eq_ok_iff.mp hOp⟩, (hOps o.index).1 hSelf⟩)
      · exact .inl (hErase ▸ (List.mem_erase_of_ne hRoot).mpr hTop)
  · have hLeft := (hOps.some_iff.mp hOp').2
    refine ((hWithout.places p.index).2 hLeft).trans (hUnplaces.places p ?_)
    exact fun hRoot => hLeft (hRoot ▸ hSelf)
  · rcases unplace_region hUnplace (hRegion hRegion') with ⟨region, hFound, hParent, -⟩
    exact ⟨region, hFound, hParent.symm⟩
  · rcases unplace_region hUnplace (hRegion hRegion') with ⟨region, hFound, -, hSame⟩
    exact ⟨region, hFound, hSame⟩

theorem replaceWithConstant_ops {value : Attr} (hRun : replaceWithConstant o value m = .ok () m') :
    m.Shrinks m' ∧ (∃ op, m.ops[o.index]? = some op ∧ m'.ops[o.index]? = some (op.settle value)) ∧
      ∀ p : OpId, p ≠ o → m'.ops[p.index]? = m.ops[p.index]? := by
  rcases replaceWithConstant_eq_ok hRun with ⟨op, m₁, hOp, -, -, hDrop, rfl⟩
  rcases dropUses_eq_ok hDrop with ⟨-, values, blocks, -, rfl, hValues, hBlocks⟩
  refine ⟨.of_kept (fun k op' hOp' => ?_) rfl rfl rfl (fun k => ?_) (fun k => ?_), ⟨op, hOp, ?_⟩,
    fun p hOther => ?_⟩
  · rcases entry_of_modify hOp' with ⟨found, hFound, rfl | rfl⟩
    · exact ⟨found, hFound, .inr rfl, rfl⟩
    · exact ⟨found, hFound, .inl rfl, rfl⟩
  · simp only [hBlocks k, Option.map_map]
    rfl
  · simp only [hValues k, Option.map_map]
    rfl
  · simp only [getElem?_modify_nat, if_true, hOp, Option.map_some]
    rfl
  · simp only [getElem?_modify_nat]
    exact if_neg fun hSame => hOther (OpId.ext hSame.symm)

/- The operation exists and is not a constant. -/
def IsOpen (m : Module) (k : Nat) : Prop :=
  ∃ op : Operation, m.ops[k]? = some op ∧ op.kind ≠ .constant

theorem Shrinks.isOpen_before (hShrinks : m.Shrinks m') (hOpen : m'.IsOpen k) : m.IsOpen k := by
  rcases hOpen with ⟨op', hOp', hKind'⟩
  rcases hShrinks.ops k op' hOp' with ⟨op, hOp, hSame | hConstant⟩
  · exact ⟨op, hOp, hSame ▸ hKind'⟩
  · exact absurd hConstant hKind'

/- The handles of the operations that are not constants. -/
def openOps (m : Module) : Finset Nat := m.ops.keys.toFinset.filter fun k =>
    (m.ops[k]?.any fun op => op.kind != .constant) = true

theorem mem_openOps : k ∈ m.openOps ↔ m.IsOpen k := by
  unfold openOps IsOpen
  rw [Finset.mem_filter, List.mem_toFinset, Std.TreeMap.mem_keys,
    Std.TreeMap.mem_iff_isSome_getElem?]
  cases hOp : m.ops[k]? with
  | none => simp
  | some op => simp

theorem card_openOps_le (m : Module) : m.openOps.card ≤ m.ops.size := by
  calc m.openOps.card ≤ m.ops.keys.toFinset.card := Finset.card_filter_le _ _
    _ ≤ m.ops.keys.length := List.toFinset_card_le _
    _ = m.ops.size := Std.TreeMap.length_keys

----
-- Folds one after another
----

/-
  Some operations have been folded: each of them was open and
  gave way, and what else gave way was inside one of them that
  has been removed.
-/
structure Folds (m : Module) (folded : List OpId) (m' : Module) : Prop where
  shrinks : m.Shrinks m'
  nodup : folded.Nodup
  closes : ∀ o ∈ folded, m.IsOpen o.index ∧ ¬ m'.IsOpen o.index
  others : ∀ o, m.Retired m' o → o ∈ folded ∨ ∃ p ∈ folded, m'.ops[p.index]? = none ∧ m.Inside p o

namespace Folds

theorem refl (m : Module) : m.Folds [] m where
  shrinks := .refl m
  nodup := .nil
  closes := nofun
  others := fun _ hRetired => absurd hRetired (not_retired_of_kinds rfl)

theorem trans {first second : List OpId} (hFirst : m₁.Folds first m₂)
    (hSecond : m₂.Folds second m₃) : m₁.Folds (first ++ second) m₃ where
  shrinks := hFirst.shrinks.trans hSecond.shrinks
  nodup := List.nodup_append.mpr ⟨hFirst.nodup, hSecond.nodup, by
    rintro o hIn _ hLater rfl
    exact (hFirst.closes o hIn).2 (hSecond.closes o hLater).1⟩
  closes := by
    intro o hIn
    rcases List.mem_append.mp hIn with hEarly | hLater
    · rcases hFirst.closes o hEarly with ⟨hOpen, hClosed⟩
      exact ⟨hOpen, fun hOpen' => hClosed (hSecond.shrinks.isOpen_before hOpen')⟩
    · rcases hSecond.closes o hLater with ⟨hOpen, hClosed⟩
      exact ⟨hFirst.shrinks.isOpen_before hOpen, hClosed⟩
  others := by
    intro o hRetired
    -- the operation gave way in the first part, or it was as before then
    by_cases hEarly : m₁.Retired m₂ o
    · rcases hFirst.others o hEarly with hIn | ⟨p, hIn, hGone, hInside⟩
      · exact .inl (List.mem_append_left _ hIn)
      · exact .inr ⟨p, List.mem_append_left _ hIn, hSecond.shrinks.none_after hGone, hInside⟩
    · have hLater : m₂.Retired m₃ o := by
        rcases hRetired with ⟨op, hOp, hNow⟩
        cases hOp₂ : m₂.ops[o.index]? with
        | none => exact absurd ⟨op, hOp, .inl hOp₂⟩ hEarly
        | some op₂ =>
          refine ⟨op₂, hOp₂, hNow.imp id (And.imp_left fun hOpen hConstant => ?_)⟩
          exact hEarly ⟨op, hOp, .inr ⟨hOpen, op₂, hOp₂, hConstant⟩⟩
      rcases hSecond.others o hLater with hIn | ⟨p, hIn, hGone, hInside⟩
      · exact .inl (List.mem_append_right _ hIn)
      · exact .inr ⟨p, List.mem_append_right _ hIn, hGone,
          Relation.TransGen.mono hFirst.shrinks.within _ _ hInside⟩

/- There are no more folds than operations that are not constants. -/
theorem length_le (hFolds : m.Folds folded m') :
    folded.length ≤ m.openOps.card := by
  have hDistinct : (folded.map OpId.index).Nodup := hFolds.nodup.map fun _ _ hSame => OpId.ext hSame
  rw [← List.length_map OpId.index, ← List.toFinset_card_of_nodup hDistinct]
  refine Finset.card_le_card fun k hIn => ?_
  rcases List.mem_map.mp (List.mem_toFinset.mp hIn) with ⟨o, hMember, rfl⟩
  exact mem_openOps.mpr (hFolds.closes o hMember).1

end Folds

/- A fold that changes something closes its operation. -/
theorem foldOp_folds (hRun : foldOp o m = .ok changed m') :
    m.Folds (if changed then [o] else []) m' := by
  rcases foldOp_eq_ok hRun with ⟨rfl, rfl, -⟩ | ⟨rfl, op, hOp, hKind, hStep⟩
  · exact .refl _
  · have hOpen : m.IsOpen o.index := ⟨op, op_eq_ok_iff.mp hOp, hKind⟩
    rcases hStep with ⟨value, -, hReplace⟩ | ⟨v, r, m₁, removed, -, -, hReplace, hRemove⟩
    · rcases replaceWithConstant_ops hReplace with ⟨hShrinks, ⟨found, -, hHere⟩, hOthers⟩
      refine ⟨hShrinks, List.nodup_singleton o, ?_, fun p hRetired => .inl ?_⟩
      · simp only [if_true, List.forall_mem_singleton]
        refine ⟨hOpen, fun ⟨op', hOp', hKind'⟩ => hKind' ?_⟩
        cases hHere.symm.trans hOp'
        rfl
      · by_contra hOther
        refine not_retired_of_kinds ?_ hRetired
        rw [hOthers p (by simpa using hOther)]
    · rcases replaceAllUses_ops hReplace with ⟨hShrinks, -, hKinds⟩
      rcases removeOp_shrinks hRemove with ⟨gone, hSelf, hNested, hErases, hFewer⟩
      have hGone := (hErases o.index).1 hSelf
      refine ⟨hShrinks.trans hFewer, List.nodup_singleton o, ?_, fun p hRetired => ?_⟩
      · simp only [if_true, List.forall_mem_singleton]
        exact ⟨hOpen, fun ⟨op', hOp', _⟩ => by rw [hGone] at hOp'; cases hOp'⟩
      · by_cases hLost : p ∈ gone
        · rcases hNested p hLost with rfl | hInside
          · exact .inl (.head _)
          · exact .inr ⟨o, .head _, hGone,
              Relation.TransGen.mono hShrinks.within _ _ hInside⟩
        · refine absurd hRetired (not_retired_of_kinds ?_)
          rw [(hErases p.index).2 hLost, hKinds]

----
-- Rounds
----

theorem foldEach_folds (hRun : foldEach os m = .ok n m') :
    (∃ folded, folded.length = n ∧ m.Folds folded m') ∧
      (n = 0 → m' = m ∧ ∀ o ∈ os, ∀ op, m.op o = .ok op → m.fold? o = .ok none) := by
  induction os generalizing m n with
  | nil =>
    cases hRun
    exact ⟨⟨[], rfl, .refl _⟩, fun _ => ⟨rfl, nofun⟩⟩
  | cons o os ih =>
    rcases bind_eq_ok hRun with ⟨changed, m₁, hFirst, hRest⟩
    rcases bind_eq_ok hRest with ⟨later, m₂, hLater, hDone⟩
    cases hDone
    rcases ih hLater with ⟨⟨folded, hLength, hFolds⟩, hNone⟩
    refine ⟨⟨_, ?_, (foldOp_folds hFirst).trans hFolds⟩, fun hZero => ?_⟩
    · cases changed <;> simp [hLength]
    · rcases foldOp_eq_ok hFirst with ⟨rfl, rfl, hHere⟩ | ⟨rfl, -⟩
      · rcases hNone hZero with ⟨hSame, hOthers⟩
        exact ⟨hSame, List.forall_mem_cons.mpr ⟨hHere, hOthers⟩⟩
      · cases hZero

theorem foldOnce_eq_ok (hRun : foldOnce m = .ok n m') :
    ∃ walked, m.walk = .ok walked ∧ foldEach walked m = .ok n m' := read_bind_eq_ok_iff.mp hRun

/- A round that changes nothing is the last one. -/
theorem foldRounds_eq_ok (hRun : foldRounds (rounds + 1) m = .ok n m') :
    ∃ n₁ m₁, foldOnce m = .ok n₁ m₁ ∧ (n₁ = 0 ∧ n = 0 ∧ m' = m₁ ∨
        n₁ ≠ 0 ∧ ∃ n₂, foldRounds rounds m₁ = .ok n₂ m' ∧ n = n₁ + n₂) := by
  rcases bind_eq_ok hRun with ⟨n₁, m₁, hFirst, hRest⟩
  refine ⟨n₁, m₁, hFirst, ?_⟩
  by_cases hNone : n₁ = 0
  · rw [if_pos hNone] at hRest
    cases hRest
    exact .inl ⟨hNone, rfl, rfl⟩
  · rw [if_neg hNone] at hRest
    rcases bind_eq_ok hRest with ⟨n₂, m₂, hLater, hDone⟩
    cases hDone
    exact .inr ⟨hNone, n₂, hLater, rfl⟩

theorem foldRounds_folds (hRun : foldRounds rounds m = .ok n m') :
    ∃ folded, folded.length = n ∧ m.Folds folded m' := by
  induction rounds generalizing m n with
  | zero =>
    cases hRun
    exact ⟨[], rfl, .refl _⟩
  | succ rounds ih =>
    rcases foldRounds_eq_ok hRun with ⟨n₁, m₁, hFirst, hCases⟩
    rcases foldOnce_eq_ok hFirst with ⟨walked, -, hEach⟩
    rcases foldEach_folds hEach with ⟨⟨folded, hLength, hFolds⟩, hNone⟩
    rcases hCases with ⟨hZero, rfl, rfl⟩ | ⟨-, n₂, hLater, rfl⟩
    · exact ⟨folded, hLength.trans hZero, hFolds⟩
    · rcases ih hLater with ⟨others, hOthers, hFolds'⟩
      exact ⟨folded ++ others, by simp [hLength, hOthers], hFolds.trans hFolds'⟩

theorem Reached.foldOp (hReached : m.Reached) (hRun : Module.foldOp o m = .ok changed m') :
    m'.Reached := by
  rcases foldOp_eq_ok hRun with ⟨-, rfl, -⟩ | ⟨-, op, -, -, hStep⟩
  · exact hReached
  · rcases hStep with ⟨value, -, hReplace⟩ | ⟨v, r, m₁, removed, -, -, hReplace, hRemove⟩
    · exact hReached.change (.replaceWithConstant o value) hReplace
    · exact (hReached.change (.replaceAllUses r v) hReplace).change (.removeOp o)
        (bind_of_ok hRemove rfl)

/- What every fold of an operation of the module keeps true, all rounds keep true. -/
theorem Reached.foldRounds_induction {P : Module → Prop} (hStep : ∀ o m changed m', m.Reached →
        (∀ op, m.op o = .ok op → m.Live o) → Module.foldOp o m = .ok changed m' → P m → P m')
    (hReached : m.Reached) (hRun : foldRounds rounds m = .ok n m') (hStart : P m) :
    m'.Reached ∧ P m' := by
  have hEach : ∀ (os : List OpId) (n : Nat) (m m' : Module), foldEach os m = .ok n m' →
      m.Reached → (∀ o ∈ os, ∀ op, m.op o = .ok op → m.Live o) → P m → m'.Reached ∧ P m' := by
    intro os
    induction os with
    | nil =>
      intro n m m' hRun hReached _ hStart
      cases hRun
      exact ⟨hReached, hStart⟩
    | cons o os ih =>
      intro n m m' hRun hReached hLive hStart
      rcases bind_eq_ok hRun with ⟨changed, m₁, hFirst, hRest⟩
      rcases bind_eq_ok hRest with ⟨later, m₂, hLater, hDone⟩
      cases hDone
      rcases List.forall_mem_cons.mp hLive with ⟨hHere, hOthers⟩
      have hReached₁ := hReached.foldOp hFirst
      refine ih later m₁ m' hLater hReached₁ (fun p hIn op₁ hOp₁ => ?_)
        (hStep o m changed m₁ hReached hHere hFirst hStart)
      have hShrinks := (foldOp_folds hFirst).shrinks
      rcases hShrinks.ops _ op₁ (op_eq_ok_iff.mp hOp₁) with ⟨op, hOp, -⟩
      exact hShrinks.live_after hReached hReached₁ (op_eq_ok_iff.mp hOp₁)
        (hOthers p hIn op (op_eq_ok_iff.mpr hOp))
  induction rounds generalizing m n with
  | zero =>
    cases hRun
    exact ⟨hReached, hStart⟩
  | succ rounds ih =>
    rcases foldRounds_eq_ok hRun with ⟨n₁, m₁, hFirst, hCases⟩
    rcases foldOnce_eq_ok hFirst with ⟨walked, hWalk, hWalked⟩
    have hNext := hEach walked n₁ m m₁ hWalked hReached
      (fun o hIn _ _ => (mem_walk_iff_live hWalk).mp hIn) hStart
    rcases hCases with ⟨-, -, rfl⟩ | ⟨-, n₂, hLater, -⟩
    · exact hNext
    · exact ih hNext.1 hLater hNext.2

/- A round that changes something leaves fewer open operations. -/
theorem card_openOps_lt (hFirst : foldOnce m = .ok n₁ m₁)
    (hSome : n₁ ≠ 0) : m₁.openOps.card < m.openOps.card := by
  rcases foldOnce_eq_ok hFirst with ⟨walked, -, hEach⟩
  rcases (foldEach_folds hEach).1 with ⟨folded, hLength, hFolds⟩
  rcases List.exists_mem_of_ne_nil folded (by rintro rfl; exact hSome hLength.symm) with ⟨o, hIn⟩
  rcases hFolds.closes o hIn with ⟨hOpen, hClosed⟩
  refine Finset.card_lt_card ((Finset.ssubset_iff_of_subset fun j hIn => ?_).mpr ?_)
  · exact mem_openOps.mpr (hFolds.shrinks.isOpen_before (mem_openOps.mp hIn))
  · exact ⟨o.index, mem_openOps.mpr hOpen, fun hIn => hClosed (mem_openOps.mp hIn)⟩

/- The rounds end with one that changes nothing. -/
theorem foldRounds_settles (hRounds : m.openOps.card < rounds)
    (hRun : foldRounds rounds m = .ok n m') : foldOnce m' = .ok 0 m' := by
  induction rounds generalizing m n with
  | zero => cases hRounds
  | succ rounds ih =>
    rcases foldRounds_eq_ok hRun with ⟨n₁, m₁, hFirst, hCases⟩
    rcases hCases with ⟨rfl, -, rfl⟩ | ⟨hSome, n₂, hLater, -⟩
    · rcases foldOnce_eq_ok hFirst with ⟨walked, -, hEach⟩
      rcases (foldEach_folds hEach).2 rfl with ⟨rfl, -⟩
      exact hFirst
    · have hFewer := card_openOps_lt hFirst hSome
      exact ih (by omega) hLater

/- Further rounds change nothing, however the folding ends. -/
theorem foldRounds_enough (hRounds : m.openOps.card < rounds) (extra : Nat) :
    foldRounds (rounds + extra) m = foldRounds rounds m := by
  induction rounds generalizing m with
  | zero => cases hRounds
  | succ rounds ih =>
    rw [Nat.add_right_comm]
    simp only [foldRounds, bind, EStateM.bind]
    cases hFirst : foldOnce m with
    | error fault m₁ => rfl
    | ok n₁ m₁ =>
      dsimp only
      by_cases hNone : n₁ = 0
      · rw [if_pos hNone, if_pos hNone]
      · have hFewer := card_openOps_lt hFirst hNone
        rw [if_neg hNone, if_neg hNone]
        simp only [EStateM.bind, ih (m := m₁) (by omega)]

theorem foldOnce_settled (hOnce : foldOnce m = .ok 0 m) :
    (∃ walked, m.walk = .ok walked ∧ ∀ o ∈ walked, m.fold? o = .ok none) ∧ foldAll m = .ok 0 m := by
  rcases foldOnce_eq_ok hOnce with ⟨walked, hWalk, hEach⟩
  refine ⟨⟨walked, hWalk, fun o hIn => ?_⟩, bind_of_get (bind_of_ok hOnce rfl)⟩
  rcases exists_of_mem_walk hWalk hIn with ⟨op, hOp⟩
  exact ((foldEach_folds hEach).2 rfl).2 o hIn op hOp

----
-- Modules that are folded
----

/-
  What holds of the module after some changes and of the module
  that it folds to.
-/
theorem exists_folded {cs : List Change} {p : Module → Nat → Module → Prop}
    (hFolds : ∃ m ∈ (emptyAfter {}).after cs, Succeeds foldAll m (p m)) :
    ∃ m n m', m.Reached ∧ foldAll m = .ok n m' ∧ p m n m' := by
  rcases hFolds with ⟨m, hAfter, hRun⟩
  rcases hRun.eq_ok with ⟨n, m', hRun, hHolds⟩
  exact ⟨m, n, m', (Reached.empty {}).after hAfter, hRun, hHolds⟩

/-
  A function with a conversion that folds to its operand and
  holds an operation of its own.
-/
def convertsAround : List Change := [.newOp .func [] [] (.ofList [("sym_name", .str "f"),
        ("type", .type (.function [.integer 32] []))]) 1 [], .newBlock ⟨0⟩ [.integer 32],
    .newOp .convert [⟨0⟩] [.integer 32] {} 1 [], .appendOp ⟨0⟩ ⟨1⟩, .newBlock ⟨1⟩ [],
    .newOp .unreachable [] [] {} 0 [], .appendOp ⟨1⟩ ⟨2⟩, .newOp .ret [] [] {} 0 [],
    .appendOp ⟨0⟩ ⟨3⟩, .pushTop ⟨0⟩]

theorem exists_convertsAround_folded : ∃ m m', m.Reached ∧ foldAll m = .ok 1 m' ∧
      m.Retired m' ⟨1⟩ ∧ m.Retired m' ⟨2⟩ := by
  have hFolds : ∃ m ∈ (emptyAfter {}).after convertsAround, Succeeds foldAll m fun n m' => n = 1 ∧
        ∀ k ∈ [1, 2], (∃ op ∈ m.ops[k]?, op.successors = []) ∧ m'.ops[k]? = none := by
    decide +kernel
  rcases exists_folded hFolds with ⟨m, n, m', hReached, hRun, rfl, hBoth⟩
  have hRetired : ∀ k ∈ [1, 2], m.Retired m' ⟨k⟩ := by
    intro k hIn
    rcases hBoth k hIn with ⟨⟨op, hOp, -⟩, hGone⟩
    exact ⟨op, hOp, .inl hGone⟩
  exact ⟨m, m', hReached, hRun, hRetired 1 (by simp), hRetired 2 (by simp)⟩

/-
  Folding comes to an end: no number of rounds gives more than
  the rounds it makes, and there are no more folds than open
  operations. Afterwards nothing folds. The folds are as many as
  the operations that were folded; what else is gone was inside
  one of them that has been removed.
-/
theorem foldAll_reaches_fixpoint (m : Module) :
    (∀ rounds, m.openOps.card < rounds → foldRounds rounds m = foldAll m) ∧
    ∀ n m', foldAll m = .ok n m' → n ≤ m.openOps.card ∧
      (∃ walked, m'.walk = .ok walked ∧ ∀ o ∈ walked, m'.fold? o = .ok none) ∧
      foldAll m' = .ok 0 m' ∧ ∃ folded : List OpId, folded.length = n ∧ folded.Nodup ∧
        (∀ o ∈ folded, m.IsOpen o.index ∧ m.Retired m' o) ∧ ∀ o, m.Retired m' o →
          o ∈ folded ∨ ∃ p ∈ folded, m'.ops[p.index]? = none ∧ m.Inside p o := by
  have hEnough := Nat.lt_succ_of_le m.card_openOps_le
  have hAll : foldAll m = foldRounds (m.ops.size + 1) m := rfl
  refine ⟨fun rounds hRounds => ?_, fun n m' hRun => ?_⟩
  · calc foldRounds rounds m
      _ = foldRounds (rounds + (m.ops.size + 1)) m := (foldRounds_enough hRounds _).symm
      _ = foldRounds (m.ops.size + 1 + rounds) m := by rw [Nat.add_comm]
      _ = foldAll m := foldRounds_enough hEnough rounds
  · rw [hAll] at hRun
    rcases foldRounds_folds hRun with ⟨folded, hLength, hFolds⟩
    rcases foldOnce_settled (foldRounds_settles hEnough hRun) with ⟨hWalked, hAgain⟩
    refine ⟨hLength ▸ hFolds.length_le, hWalked, hAgain, folded, hLength, hFolds.nodup, ?_,
      hFolds.others⟩
    intro o hIn
    rcases hFolds.closes o hIn with ⟨hOpen, hClosed⟩
    refine ⟨hOpen, ?_⟩
    rcases hOpen with ⟨op, hOp, hKind⟩
    refine ⟨op, hOp, ?_⟩
    cases hOp' : m'.ops[o.index]? with
    | none => exact .inl rfl
    | some op' =>
      refine .inr ⟨hKind, op', rfl, ?_⟩
      by_contra hKind'
      exact hClosed ⟨op', hOp', hKind'⟩

theorem foldAll_reaches_fixpoint_convertsAround : ∃ m m', foldAll m = .ok 1 m' ∧
    1 ≤ m.openOps.card ∧ foldAll m' = .ok 0 m' := by
  rcases exists_convertsAround_folded with ⟨m, m', -, hRun, -⟩
  rcases (foldAll_reaches_fixpoint m).2 1 m' hRun with ⟨hBound, -, hAgain, -⟩
  exact ⟨m, m', hRun, hBound, hAgain⟩

/- One fold may take away more than one operation. -/
theorem foldAll_count_lt_retired : ∃ m n m', m.Reached ∧ foldAll m = .ok n m' ∧
    ∃ gone : List OpId, gone.Nodup ∧ (∀ o ∈ gone, m.Retired m' o) ∧ n < gone.length := by
  rcases exists_convertsAround_folded with ⟨m, m', hReached, hRun, hOuter, hInner⟩
  refine ⟨m, 1, m', hReached, hRun, [⟨1⟩, ⟨2⟩], by decide, ?_, by decide⟩
  intro o hIn
  rcases List.mem_pair.mp hIn with rfl | rfl
  · exact hOuter
  · exact hInner

end Module

end FortranIR
