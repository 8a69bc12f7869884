import FortranIR.Proofs.Assembly.Regions
import FortranIR.Proofs.Reading.Grammar

/-
  This file states what stays in a module while it is assembled,
  also behind errors. Only placeholders are ever removed, and
  blocks are placed in one region at a time.

  Main declarations:
    * `Module.Real`
    * `Assemble.Created.keeps`
-/

namespace FortranIR

variable {v : ValueId} {info : ValueInfo} {k : Nat}
variable {op : Operation}

namespace Module

variable {m m' m₁ : Module}

----
-- Modules that are being assembled
----

/- A value exists, and is not a placeholder. -/
def Real (m : Module) (v : ValueId) : Prop := ∃ info, m.values[v.index]? = some info ∧
    info.defined ≠ .placeholder

/- The arguments of blocks are no placeholders. -/
theorem Assembled.args {info : BlockInfo} (hAssembled : m.Assembled)
    (hInfo : m.blocks[k]? = some info) (hMember : v ∈ info.args) : m.Real v := by
  rcases List.getElem?_of_mem hMember with ⟨i, hAt⟩
  rcases Option.map_eq_some_iff.mp
    (hAssembled.reached.definitionsKept.args k info hInfo i v hAt) with ⟨found, hFound, hSource⟩
  exact ⟨found, hFound, by simp [hSource]⟩

/- Kind, results and regions, which assembly never changes. -/
def outline (op : Operation) : OpKind × List ValueId × List RegionId :=
  (op.kind, op.results, op.regions)

/- Operations have places, and those that fold are flat. -/
structure Written (m : Module) : Prop where
  placed : ∀ (o : OpId) (op : Operation), m.ops[o.index]? = some op → m.HasPlace o
  flat : ∀ (o : OpId) (op : Operation), m.ops[o.index]? = some op → op.kind.folds = true →
      op.regions = [] ∧ ∀ v ∈ op.results, ∃ info, m.values[v.index]? = some info ∧
        info.defined ≠ .placeholder ∧ info.type.Sized

theorem Written.keep (hWritten : m.Written)
    (hOps : ∀ k : Nat, m'.ops[k]?.map outline = m.ops[k]?.map outline)
    (hValues : ∀ (k : Nat) (info : ValueInfo), m.values[k]? = some info →
        info.defined ≠ .placeholder → ∃ info', m'.values[k]? = some info' ∧
          info'.type = info.type ∧ info'.defined = info.defined)
    (hPlaces : m'.places = m.places) (hTop : m'.top = m.top) : m'.Written where
  placed := by
    intro o op' hOp'
    rcases exists_of_map_eq (hOps o.index).symm hOp' with ⟨op, hOp, -⟩
    rw [HasPlace, hPlaces, hTop]
    exact hWritten.placed o op hOp
  flat := by
    intro o op' hOp' hFolds
    rcases exists_of_map_eq (hOps o.index).symm hOp' with ⟨op, hOp, hSame⟩
    simp only [outline, Prod.mk.injEq] at hSame
    rw [← hSame.1] at hFolds
    rw [← hSame.2.1, ← hSame.2.2]
    refine (hWritten.flat o op hOp hFolds).imp id fun hResults v hMember => ?_
    rcases hResults v hMember with ⟨info, hInfo, hReal, hSized⟩
    rcases hValues _ info hInfo hReal with ⟨info', hInfo', hType, hDefined⟩
    exact ⟨info', hInfo', hDefined ▸ hReal, hType ▸ hSized⟩

/-
  What is there stays. Placeholders stay if `all` values do, and
  blocks are placed only in the regions in `opened`.
-/
structure Keeps (all : Prop) (opened : RegionId → Prop) (m m' : Module) : Prop where
  ops : ∀ (k : Nat) (op : Operation), m.ops[k]? = some op →
      ∃ op', m'.ops[k]? = some op' ∧ op'.results = op.results ∧ op'.regions = op.regions
  values : ∀ (k : Nat) (info : ValueInfo), m.values[k]? = some info →
      all ∨ info.defined ≠ .placeholder →
      ∃ info', m'.values[k]? = some info' ∧ info'.type = info.type ∧ info'.defined = info.defined
  blocks : ∀ (k : Nat) (info : BlockInfo), m.blocks[k]? = some info →
      ∃ info', m'.blocks[k]? = some info' ∧ info'.region = info.region
  regions : ∀ (r : RegionId) (bs : List BlockId), m.regionBlocks r = .ok bs →
      ∃ bs', m'.regionBlocks r = .ok bs' ∧ (¬ opened r → bs' = bs)
  placed : ∀ (b : BlockId) (os : List OpId), m.blockOps b = .ok os → ∃ os', m'.blockOps b = .ok os'
  written : m.Written → m'.Written

/- No region. -/
abbrev NoRegion (_ : RegionId) : Prop := False

namespace Keeps

theorem refl (m : Module) : m.Keeps all opened m where
  ops := fun _ op hOp => ⟨op, hOp, rfl, rfl⟩
  values := fun _ info hInfo _ => ⟨info, hInfo, rfl, rfl⟩
  blocks := fun _ info hInfo => ⟨info, hInfo, rfl⟩
  regions := fun _ bs hBlocks => ⟨bs, hBlocks, fun _ => rfl⟩
  placed := fun _ os hOps => ⟨os, hOps⟩
  written := id

/- What is opened later may be new. -/
theorem trans (hFirst : m₁.Keeps all opened m₂) (hSecond : m₂.Keeps all opened' m₃) (hOpened :
      ∀ r bs, m₁.regionBlocks r = .ok bs → opened' r → opened r) : m₁.Keeps all opened m₃ where
  ops := by
    intro k op hOp
    rcases hFirst.ops k op hOp with ⟨op₁, hOp₁, hResults, hRegions⟩
    rcases hSecond.ops k op₁ hOp₁ with ⟨op₂, hOp₂, hResults₂, hRegions₂⟩
    exact ⟨op₂, hOp₂, hResults₂.trans hResults, hRegions₂.trans hRegions⟩
  values := by
    intro k info hInfo hStays
    rcases hFirst.values k info hInfo hStays with ⟨info₁, hInfo₁, hType, hSame⟩
    rw [← hSame] at hStays ⊢
    rw [← hType]
    exact hSecond.values k info₁ hInfo₁ hStays
  blocks := by
    intro k info hInfo
    rcases hFirst.blocks k info hInfo with ⟨info₁, hInfo₁, hSame⟩
    rw [← hSame]
    exact hSecond.blocks k info₁ hInfo₁
  regions := by
    intro r bs hBlocks
    rcases hFirst.regions r bs hBlocks with ⟨bs₁, hBlocks₁, hSame⟩
    rcases hSecond.regions r bs₁ hBlocks₁ with ⟨bs₂, hBlocks₂, hSame₂⟩
    refine ⟨bs₂, hBlocks₂, fun hClosed => ?_⟩
    rw [hSame₂ fun hOpen => hClosed (hOpened r bs hBlocks hOpen), hSame hClosed]
  placed := by
    intro b os hOps
    rcases hFirst.placed b os hOps with ⟨os₁, hOps₁⟩
    exact hSecond.placed b os₁ hOps₁
  written := hSecond.written ∘ hFirst.written

theorem forget (hKeeps : m.Keeps True opened m') : m.Keeps all opened m' := { hKeeps with
    values := fun k info hInfo _ => hKeeps.values k info hInfo (.inl trivial) }

theorem real (hKeeps : m.Keeps all opened m') (hReal : m.Real v) : m'.Real v := by
  rcases hReal with ⟨info, hInfo, hKind⟩
  rcases hKeeps.values _ info hInfo (.inr hKind) with ⟨info', hInfo', -, hSame⟩
  exact ⟨info', hInfo', hSame ▸ hKind⟩

/- A frame that replaces no value keeps all of them. -/
theorem of_frame (hFrame : m.Frame id opened openBlock m') (hValues :
      ∀ (k : Nat) (info : ValueInfo), m.values[k]? = some info → ∃ info',
        m'.values[k]? = some info' ∧ info'.type = info.type ∧ info'.defined = info.defined)
    (hOpened : ∀ r, opened r → ∃ bs, m'.regionBlocks r = .ok bs)
    (hWritten : m.Written → m'.Written) : m.Keeps True opened m' where
  ops := by
    intro k op hOp
    rcases hFrame.ops ⟨k⟩ op hOp with ⟨span, hOp'⟩
    exact ⟨_, hOp', rfl, rfl⟩
  values := fun k info hInfo _ => hValues k info hInfo
  blocks := by
    intro k info hInfo
    rcases hFrame.blocks ⟨k⟩ info hInfo with ⟨info', hInfo', hSame, -⟩
    exact ⟨info', hInfo', hSame⟩
  regions := by
    intro r bs hBlocks
    by_cases hOpen : opened r
    · rcases hOpened r hOpen with ⟨bs', hBlocks'⟩
      exact ⟨bs', hBlocks', fun hClosed => absurd hOpen hClosed⟩
    · exact ⟨bs, hFrame.regionBlocks r bs hBlocks hOpen, fun _ => rfl⟩
  placed := hFrame.placed
  written := hWritten

/- The regions have the same blocks, with the same operations. -/
theorem of_regions (hOps : ∀ k : Nat, m'.ops[k]?.map outline = m.ops[k]?.map outline)
    (hPlaces : m'.places = m.places) (hTop : m'.top = m.top)
    (hValues : ∀ (k : Nat) (info : ValueInfo), m.values[k]? = some info →
        all ∨ info.defined ≠ .placeholder → ∃ info',
        m'.values[k]? = some info' ∧ info'.type = info.type ∧ info'.defined = info.defined)
    (hBlocks : ∀ (k : Nat) (info : BlockInfo), m.blocks[k]? = some info →
        ∃ info', m'.blocks[k]? = some info' ∧ info'.region = info.region)
    (hRegions : m'.regions = m.regions) : m.Keeps all opened m' where
  ops := by
    intro k op hOp
    rcases exists_of_map_eq (hOps k) hOp with ⟨op', hOp', hSame⟩
    simp only [outline, Prod.mk.injEq] at hSame
    exact ⟨op', hOp', hSame.2⟩
  values := hValues
  blocks := hBlocks
  regions := by
    unfold regionBlocks region
    rw [hRegions]
    exact fun _ bs hBlocks => ⟨bs, hBlocks, fun _ => rfl⟩
  placed := by
    intro b os hPlaced
    rcases blockOps_eq_ok_iff.mp hPlaced with ⟨info, region, hInfo, hRegion, hFound⟩
    rcases hBlocks _ info hInfo with ⟨info', hInfo', hSame⟩
    refine ⟨os, blockOps_eq_ok_iff.mpr ⟨info', region, hInfo', ?_, hFound⟩⟩
    rw [hRegions, hSame]
    exact hRegion
  written := fun hWritten => hWritten.keep hOps
    (fun k info hInfo hReal => hValues k info hInfo (.inr hReal)) hPlaces hTop

end Keeps

theorem Adds.keeps (hAdds : m.Adds opened m') : m.Keeps True NoRegion m' := by
  refine .of_regions (fun _ => by rw [hAdds.ops]) hAdds.places hAdds.top
    (fun k info hInfo _ => ⟨info, hAdds.values k info hInfo, rfl, rfl⟩) (fun k info hInfo => ?_)
    hAdds.regions
  rcases hAdds.blocks ⟨k⟩ info hInfo with ⟨info', hInfo', hRegion, -⟩
  exact ⟨info', hInfo', hRegion⟩

/- Only the placeholder is gone. -/
theorem Resolved.keeps (hResolved : m.Resolved p v m') (hInfo : m.values[p.index]? = some info)
    (hKind : info.defined = .placeholder) : m.Keeps False NoRegion m' := by
  refine .of_regions ?_ hResolved.places hResolved.top ?_ ?_ hResolved.regions
  · intro k
    rw [hResolved.ops, Option.map_map]
    rfl
  · intro k old hOld hNot
    have hOther : (⟨k⟩ : ValueId) ≠ p := by
      rintro rfl
      cases hInfo.symm.trans hOld
      exact hNot.resolve_left id hKind
    rcases hResolved.values ⟨k⟩ old hOld hOther with ⟨users, hNew⟩
    exact ⟨_, hNew, rfl, rfl⟩
  · rw [hResolved.blocks]
    exact fun _ block hBlock => ⟨block, hBlock, rfl⟩

----
-- Steps
----

namespace Assembled

/- A block goes to the end of its region. -/
theorem placeBlock (hAssembled : m.Assembled) (hIn : m.IsIn r b)
    (hBlocks : m.regionBlocks r = .ok bs) (hAbsent : b ∉ bs) :
    ∃ m', Module.placeBlock b m = .ok () m' ∧ m'.Assembled ∧ m.Keeps True (· = r) m' ∧
      m'.regionBlocks r = .ok (bs ++ [b]) ∧ m'.blockOps b = .ok [] := by
  rcases Assemble.placeBlock_frame hAssembled hIn hBlocks hAbsent
    with ⟨m', hRun, -, -, -, -, hNext, hFrame, hBlocks', hEmpty⟩
  refine ⟨m', hRun, hNext, .of_frame hFrame ?_ ?_ ?_, hBlocks', hEmpty⟩
  all_goals rcases placeBlock_eq_ok_iff.mp hRun with ⟨_, _, -, -, -, rfl⟩
  · exact fun k info hInfo => ⟨info, hInfo, rfl, rfl⟩
  · rintro _ rfl
    exact ⟨_, hBlocks'⟩
  · exact fun hWritten =>
      hWritten.keep (fun _ => rfl) (fun k info hInfo _ => ⟨info, hInfo, rfl, rfl⟩) rfl rfl

end Assembled

end Module

/- A new operation leaves all else, and its results are real. -/
theorem Assemble.Created.keeps
    (hCreated : Created m m' opened types op)
    (hPlaces : ∀ o, o = ⟨m.handles.op⟩ ∨ m.HasPlace o → m'.HasPlace o)
    (hFlat : op.kind.folds = true → op.regions = [] ∧ ∀ t ∈ types, t.Sized) :
    m.Keeps True Module.NoRegion m' ∧ ∀ v ∈ op.results, m'.Real v := by
  have hResults : ∀ v ∈ op.results, ∃ info, m'.values[v.index]? = some info ∧
        info.defined ≠ .placeholder ∧ info.type ∈ types := by
    intro v hMember
    rcases hCreated.defined.exists_info hMember with ⟨i, info, hInfo, hType, hKind⟩
    exact ⟨info, hInfo, by simp [hKind], hType⟩
  refine ⟨.of_frame hCreated.frame ?_ (fun _ hOpen => hOpen.elim) ?_, fun v hMember => ?_⟩
  · intro k info hInfo
    rcases hCreated.kept k info hInfo with ⟨users, hNew⟩
    exact ⟨_, hNew, rfl, rfl⟩
  · refine fun hWritten => ⟨fun o found hFound => hPlaces o ?_, fun o found hFound hFolds => ?_⟩
    all_goals by_cases hNew : o.index = m.handles.op
    · exact .inl (OpId.ext hNew)
    · rw [hCreated.ops _ hNew] at hFound
      exact .inr (hWritten.placed o found hFound)
    · rw [hNew, hCreated.entry, Option.some.injEq] at hFound
      subst hFound
      refine (hFlat hFolds).imp id fun hSized v hMember => ?_
      rcases hResults v hMember with ⟨info, hInfo, hReal, hType⟩
      exact ⟨info, hInfo, hReal, hSized _ hType⟩
    · rw [hCreated.ops _ hNew] at hFound
      refine (hWritten.flat o found hFound hFolds).imp id fun hOld v hMember => ?_
      rcases hOld v hMember with ⟨info, hInfo, hReal, hSized⟩
      rcases hCreated.kept _ info hInfo with ⟨users, hInfo'⟩
      exact ⟨_, hInfo', hReal, hSized⟩
  · rcases hResults v hMember with ⟨info, hInfo, hReal, -⟩
    exact ⟨info, hInfo, hReal⟩

end FortranIR
