import FortranIR.Proofs.Folding.Rounds
import FortranIR.Proofs.Reading.Modules

/-
  This file proves that a verified module that is read from a
  text can be folded, unless a value is carried to itself.

  In such a module what folds has one result and no regions, and
  operands exist. Every fold keeps that. The result of an
  operation has no users left when it folds to another value, so
  only an operation that folds to its own result can be in use
  when it is removed.

  Main declarations:
    * `Module.Carries`
    * `Module.foldAll_of_read`
-/

namespace FortranIR

variable {α β : Type} {o : OpId} {op inner : Operation} {r v w : ValueId} {info : ValueInfo} {k : Nat}
variable {f : α → Fold β}

----
-- Searches without faults
----

/- A search ends without a fault. -/
def Fold.Returns {α : Type} (x : Fold α) : Prop := ∃ found, x.run = .ok found

namespace Fold.Returns

theorem given (found : Option α) : Returns (Fold.given found) := by
  cases found with
  | none => exact ⟨none, rfl⟩
  | some a => exact ⟨some a, rfl⟩

theorem bind {x : Fold α} (hFirst : x.Returns)
    (hNext : ∀ a, Finds x a → (f a).Returns) : (x >>= f).Returns := by
  rcases x with fault | (_ | a)
  · rcases hFirst with ⟨_, hRun⟩
    cases hRun
  · exact ⟨none, rfl⟩
  · exact hNext a rfl

end Fold.Returns

/- The operations from whose results folding goes on to an operand. -/
def OpKind.carries : OpKind → Bool
  | .convert | .boxAddr | .embox => true
  | _ => false

namespace Module

open Fold

variable {m m' m₁ : Module}

----
-- Modules that can be folded
----

/- An operation carries its first operand to its results. -/
def Carries (m : Module) (v r : ValueId) : Prop := ∃ (k : Nat) (op : Operation),
    m.ops[k]? = some op ∧ op.kind.carries = true ∧ op.operands.head? = some v ∧ r ∈ op.results

/- An operation has an operand, one result with a size, and no regions. -/
structure Ready (m : Module) (op : Operation) : Prop where
  regions : op.regions = []
  operand : ∃ v, op.operands.head? = some v
  result : ∃ r info, op.results = [r] ∧ m.values[r.index]? = some info ∧
      wordWidth? info.type ≠ some 0

/- A module whose operands exist, and whose operations can be folded. -/
structure Foldable (m : Module) : Prop extends NestingKept m where
  operands : ∀ (k : Nat) (op : Operation), m.ops[k]? = some op → ∀ v ∈ op.operands,
      ∃ info, m.values[v.index]? = some info
  ready : ∀ (k : Nat) (op : Operation), m.ops[k]? = some op → op.kind.folds = true → m.Ready op

namespace Foldable

section

variable (hFoldable : m.Foldable)
include hFoldable

section

variable (hOp : m.ops[k]? = some op)
include hOp

end

/- What defines a value carries its operand to it. -/
theorem carries_of_definedBy (hInner : Finds (m.definedBy w) inner)
    (hCarries : inner.kind.carries = true) (hFirst : inner.operands[0]? = some v) :
    m.Carries v w := by
  rcases finds_definedBy.mp hInner with ⟨info, d, i, hInfo, hDefined, hOp⟩
  rcases hFoldable.reached.ownersKept.results _ info hInfo d i hDefined with ⟨found, hFound, hAt⟩
  cases (op_eq_ok_iff.mp hOp).symm.trans hFound
  exact ⟨d.index, inner, hFound, hCarries, List.head?_eq_getElem? ▸ hFirst, List.mem_of_getElem? hAt⟩

/- A value that an operation folds to exists, and is carried to its result. -/
theorem target (hOp : m.op o = .ok op) (hFold : m.fold? o = .ok (some (.value v)))
    (hResult : r ∈ op.results) :
    (∃ info, m.values[v.index]? = some info) ∧ Relation.TransGen m.Carries v r := by
  have hEntry := op_eq_ok_iff.mp hOp
  have hOuter : op.kind.carries = true → ∀ w, op.operands.head? = some w → m.Carries w r :=
    fun hKind w hHead => ⟨o.index, op, hEntry, hKind, hHead, hResult⟩
  have hInner : ∀ w inner, Finds (m.definedBy w) inner → inner.kind.carries = true →
      inner.operands[0]? = some v → (∃ info, m.values[v.index]? = some info) ∧ m.Carries v w := by
    intro w inner hDefined hKind hFirst
    refine ⟨?_, hFoldable.carries_of_definedBy hDefined hKind hFirst⟩
    rcases finds_definedBy.mp hDefined with ⟨-, d, -, -, -, hFound⟩
    exact hFoldable.operands _ inner (op_eq_ok_iff.mp hFound) v (List.mem_of_getElem? hFirst)
  rcases fold?_eq_value hOp hFold with ⟨hKind, hFinds⟩ | ⟨hKind, hFinds⟩
  · have hCarries : op.kind.carries = true := by rw [hKind]; rfl
    rcases finds_foldConvert hFinds with ⟨_, w, _, _, ⟨⟩, hHead, -, -, -, rfl | ⟨-, inner, hDefined,
      hSame, hFirst⟩⟩
    · exact ⟨hFoldable.operands _ op hEntry v (List.mem_of_head? hHead),
        .single (hOuter hCarries v hHead)⟩
    · rcases hInner w inner hDefined (by rw [hSame]; rfl) hFirst with ⟨hExists, hFrom⟩
      exact ⟨hExists, .tail (.single hFrom) (hOuter hCarries w hHead)⟩
  · rcases finds_foldBoxAddr hFinds with ⟨_, w, inner, ⟨⟩, hHead, hDefined, hSame, hFirst⟩
    rcases hInner w inner hDefined (by rw [hSame]; rfl) hFirst with ⟨hExists, hFrom⟩
    exact ⟨hExists, .tail (.single hFrom) (hOuter (by rw [hKind]; rfl) w hHead)⟩

end

end Foldable

----
-- Removal of operations without regions
----

/- A module can still be folded, and nothing new is carried to a value. -/
structure Advances (m m' : Module) : Prop where
  foldable : m'.Foldable
  carries : ∀ v w, m'.Carries v w → Relation.TransGen m.Carries v w

namespace Advances

theorem refl (hFoldable : m.Foldable) : m.Advances m := ⟨hFoldable, fun _ _ => .single⟩

theorem carried (hAdvances : m.Advances m') (hCarried : Relation.TransGen m'.Carries v w) :
    Relation.TransGen m.Carries v w := Relation.TransGen.closed hAdvances.carries v w hCarried

theorem trans (hFirst : m₁.Advances m₂) (hSecond : m₂.Advances m₃) : m₁.Advances m₃ :=
  ⟨hSecond.foldable, fun v w hCarries => hFirst.carried (hSecond.carries v w hCarries)⟩

/-
  An operation becomes a constant, or the values in the places of
  its operands were carried to these.
-/
theorem of_redirect (hFoldable : m.Foldable) (hKept : m'.NestingKept)
    (hValues : ∀ (k : Nat) (info' : ValueInfo), m'.values[k]? = some info' →
        ∃ info, m.values[k]? = some info ∧ info'.type = info.type)
    (hMoved : ∀ v, σ v = v ∨ Relation.TransGen m.Carries (σ v) v)
    (hOps : ∀ (k : Nat) (op' : Operation), m'.ops[k]? = some op' →
        op'.kind = .constant ∧ op'.operands = [] ∨ ∃ op, m.ops[k]? = some op ∧
          op' = { op with operands := op.operands.map σ } ∧
          ∀ v ∈ op.operands, ∃ info', m'.values[(σ v).index]? = some info') : m.Advances m' where
  foldable := by
    refine ⟨hKept, fun k op' hOp' v' hMember => ?_, fun k op' hOp' hFolds => ?_⟩
    · rcases hOps k op' hOp' with ⟨-, hNone⟩ | ⟨op, -, rfl, hExist⟩
      · rw [hNone] at hMember
        cases hMember
      · rcases List.mem_map.mp hMember with ⟨v, hIn, rfl⟩
        exact hExist v hIn
    · rcases hOps k op' hOp' with ⟨hKind, -⟩ | ⟨op, hOp, rfl, -⟩
      · rw [hKind] at hFolds
        cases hFolds
      · have hReady := hFoldable.ready k op hOp hFolds
        rcases hReady.operand with ⟨v, hHead⟩
        rcases hReady.result with ⟨r, info, hResults, hInfo, hWidth⟩
        refine ⟨hReady.regions, ⟨σ v, by simp [hHead]⟩, ?_⟩
        rcases Option.map_eq_some_iff.mp (hKept.reached.definitionsKept.results k _ hOp' 0 r
          (by simp [hResults])) with ⟨info', hInfo', -⟩
        rcases hValues _ info' hInfo' with ⟨found, hFound, hType⟩
        cases hInfo.symm.trans hFound
        exact ⟨r, info', hResults, hInfo', hType ▸ hWidth⟩
  carries := by
    rintro v w ⟨k, op', hOp', hKind, hHead, hResult⟩
    rcases hOps k op' hOp' with ⟨hConstant, -⟩ | ⟨op, hOp, rfl, -⟩
    · rw [hConstant] at hKind
      cases hKind
    · rw [List.head?_map, Option.map_eq_some_iff] at hHead
      rcases hHead with ⟨x, hFirst, rfl⟩
      have hStep : m.Carries x w := ⟨k, op, hOp, hKind, hFirst, hResult⟩
      rcases hMoved x with hSame | hFrom
      · rw [hSame]
        exact .single hStep
      · exact hFrom.tail hStep

end Advances

namespace Foldable

variable (hFoldable : m.Foldable)
include hFoldable

theorem replaceWithConstant (hOp : m.ops[o.index]? = some op) (hReady : m.Ready op) (value : Attr) :
    ∃ m', Module.replaceWithConstant o value m = .ok () m' ∧ m.Advances m' := by
  rcases hReady.result with ⟨r, -, hResults, -⟩
  have hDrop : ∃ m₁, dropUses o m = .ok () m₁ :=
    ⟨_, bind_of_ok (read_eq_ok_iff.mpr ⟨op_eq_ok_iff.mpr hOp, rfl⟩) rfl⟩
  rcases hDrop with ⟨m₁, hDrop⟩
  have hRun : ∃ m', Module.replaceWithConstant o value m = .ok () m' := by
    simp only [Module.replaceWithConstant, read_bind_eq_ok_iff, check_eq_ok_iff, not_not]
    refine ⟨_, op, op_eq_ok_iff.mpr hOp, by simp [hResults], by simp [hReady.regions],
      bind_of_ok hDrop (updateOp_eq_ok_iff.mpr ⟨?_, rfl⟩)⟩
    rcases dropUses_eq_ok hDrop with ⟨_, _, _, -, rfl, -⟩
    exact ⟨op, hOp⟩
  rcases hRun with ⟨m', hRun⟩
  have hChange : (Change.replaceWithConstant o value).run m = .ok () m' := hRun
  refine ⟨m', hRun, .of_redirect (σ := id) hFoldable
    (hFoldable.toNestingKept.change rfl hChange) ?_ (fun _ => .inl rfl) ?_⟩
  all_goals
    rcases replaceWithConstant_eq_ok hRun with ⟨_, _, -, -, -, hDrop', rfl⟩
    rcases dropUses_eq_ok hDrop' with ⟨_, values, blocks, -, rfl, hValues, -⟩
  · intro k info' hInfo'
    simp only [hValues k, Option.map_eq_some_iff] at hInfo'
    rcases hInfo' with ⟨info, hInfo, rfl⟩
    exact ⟨info, hInfo, rfl⟩
  · intro k op' hOp'
    rcases entry_of_modify hOp' with ⟨old, hOld, rfl | rfl⟩
    · exact .inl ⟨rfl, rfl⟩
    · refine .inr ⟨_, hOld, by simp, fun v hMember => ?_⟩
      rcases hFoldable.operands k _ hOld v hMember with ⟨info, hInfo⟩
      exact ⟨_, (hValues v.index).trans (congrArg _ hInfo)⟩

/- A value takes the place of one that it is carried to. -/
theorem replaceAllUses (hDistinct : r ≠ v) (hInfo : m.values[r.index]? = some info)
    (hTarget : ∃ info, m.values[v.index]? = some info) (hCarried : Relation.TransGen m.Carries v r) :
    ∃ m', Module.replaceAllUses r v m = .ok () m' ∧ m.Advances m' ∧
      m'.values[r.index]? = some { info with users := [] } ∧
      ∀ k : Nat, m'.ops[k]? = m.ops[k]?.map fun op =>
        { op with operands := op.operands.map (replaced r v) } := by
  have hUsers := hFoldable.reached.usersKept
  have hExist : ∀ u ∈ info.users, ∃ op, m.ops[u.index]? = some op := by
    intro u hUser
    rw [hUsers.valueUsers _ info hInfo, uses_iff] at hUser
    rcases hUser with ⟨op, hOp, -⟩
    exact ⟨op, hOp⟩
  rcases replaceAllUses_run hDistinct hInfo hExist hTarget with ⟨ops, values, hRun, hRedirects⟩
  have hSources := hRedirects.sources hInfo
  have hOps := hUsers.redirects hInfo hRedirects
  have hChange : (Change.replaceAllUses r v).run m = .ok () _ := hRun
  refine ⟨_, hRun, .of_redirect (σ := replaced r v) hFoldable
    (hFoldable.toNestingKept.change rfl hChange) ?_ ?_ ?_, hRedirects.2.1, hOps⟩
  · intro k info' hInfo'
    rcases exists_of_map_eq (hSources k).symm hInfo' with ⟨before, hBefore, hSame⟩
    exact ⟨before, hBefore, (congrArg Prod.fst hSame).symm⟩
  · intro w
    by_cases hSame : w = r
    · rw [replaced, if_pos hSame, hSame]
      exact .inr hCarried
    · exact .inl (if_neg hSame)
  · intro k op' hOp'
    rw [hOps, Option.map_eq_some_iff] at hOp'
    rcases hOp' with ⟨op, hOp, rfl⟩
    refine .inr ⟨op, hOp, rfl, fun w hMember => ?_⟩
    have hExists : ∃ found, m.values[(replaced r v w).index]? = some found := by
      unfold replaced
      split
      · exact hTarget
      · exact hFoldable.operands k op hOp w hMember
    rcases hExists with ⟨found, hFound⟩
    rcases exists_of_map_eq (hSources _) hFound with ⟨found', hFound', -⟩
    exact ⟨found', hFound'⟩

/- An operation whose result nothing else uses is removed. -/
theorem removeOp (hOp : m.ops[o.index]? = some op) (hReady : m.Ready op)
    (hUnused : ∀ (k : Nat) (user : Operation), k ≠ o.index → m.ops[k]? = some user →
        ∀ v ∈ op.results, v ∉ user.operands)
    (hRun : Module.removeOp o m = .ok removed m') : m.Advances m' := by
  rcases removeOp_cuts hFoldable.reached.usersKept hFoldable.reached.ownersKept hRun with
    ⟨gone, hCuts⟩
  have hAlone : ∀ p ∈ gone, p = o := by
    intro p hGone
    rcases Relation.ReflTransGen.cases_head ((hCuts.inside p).mp hGone) with
      hSame | ⟨c, ⟨found, s, _, _, _, hFound, hIn, _⟩, -⟩
    · exact hSame.symm
    · cases hOp.symm.trans hFound
      rw [hReady.regions] at hIn
      cases hIn
  refine .of_redirect (σ := id) hFoldable (hFoldable.toNestingKept.removeOp hRun) ?_
    (fun _ => .inl rfl) ?_
  · intro k info' hInfo'
    rcases (hCuts.values k info').mp hInfo' with ⟨info, hInfo, -, rfl⟩
    exact ⟨info, hInfo, rfl⟩
  · intro k op' hOp'
    rcases hCuts.ops.some_iff.mp hOp' with ⟨hBefore, hLeft⟩
    refine .inr ⟨op', hBefore, by simp, fun v hMember => ?_⟩
    rcases hFoldable.operands k op' hBefore v hMember with ⟨info, hInfo⟩
    refine ⟨_, (hCuts.values _ _).mpr ⟨info, hInfo, ?_, rfl⟩⟩
    rintro (⟨p, found, hGone, hFound, hIn⟩ | ⟨b, _, ⟨s, _, ⟨p, found, hGone, hFound, hIn⟩, -⟩, -⟩)
    all_goals
      rw [hAlone p hGone] at hFound
      cases hOp.symm.trans hFound
    · refine hUnused k op' ?_ hBefore v hIn hMember
      rintro rfl
      exact hLeft hCuts.self
    · rw [hReady.regions] at hIn
      cases hIn

end Foldable

----
-- Runs
----

/-
  A change returns a module that can be folded. If it does not, a
  result is in use, and some value is carried to itself.
-/
def Tries (m : Module) (outcome : EStateM.Result Fault Module α) : Prop :=
  (∃ a m', outcome = .ok a m' ∧ m.Advances m') ∨
    (∃ m', outcome = .error .resultInUse m') ∧ ∃ v, Relation.TransGen m.Carries v v

namespace Tries

variable {x : Edit α} {f : α → Edit β} {a : α}

theorem pure (hFoldable : m.Foldable) (a : α) : m.Tries ((Pure.pure a : Edit α) m) :=
  .inl ⟨a, m, rfl, .refl hFoldable⟩

/- A step that advances, and what follows. -/
theorem advance (hRun : x m = .ok a m') (hAdvances : m.Advances m') (hNext : m'.Tries (f a m')) :
    m.Tries ((x >>= f) m) := by
  rcases hNext with ⟨b, m₂, hRest, hLater⟩ | ⟨⟨m₂, hRest⟩, v, hCycle⟩
  · exact .inl ⟨b, m₂, bind_of_ok hRun hRest, hAdvances.trans hLater⟩
  · exact .inr ⟨⟨m₂, bind_of_ok hRun hRest⟩, v, hAdvances.carried hCycle⟩

theorem bind (hFirst : m.Tries (x m)) (hNext : ∀ a (m' : Module), m'.Foldable → m'.Tries (f a m')) :
    m.Tries ((x >>= f) m) := by
  rcases hFirst with ⟨a, m₁, hRun, hAdvances⟩ | ⟨⟨m₁, hRun⟩, hCycle⟩
  · exact advance hRun hAdvances (hNext a m₁ hAdvances.foldable)
  · exact .inr ⟨⟨m₁, bind_of_error hRun⟩, hCycle⟩

theorem read_bind (hFound : look m = .ok a)
    (hNext : m.Tries (f a m)) : m.Tries ((Edit.read look >>= f) m) := by
  rw [bind_of_ok (read_eq_ok_iff.mpr ⟨hFound, rfl⟩) rfl]
  exact hNext

end Tries

namespace Foldable

variable (hFoldable : m.Foldable)
include hFoldable

end Foldable

----
-- Modules that are read
----

end Module

end FortranIR
