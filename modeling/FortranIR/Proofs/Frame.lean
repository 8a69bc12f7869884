import FortranIR.Proofs.Code

/-
  This file describes what stays as it is while a module grows:
  entities keep their data, except for the operations of an open
  block, the blocks of an open region, and placeholders, which
  are replaced by values.

  Code that a module shows is shown by the grown module too, as
  long as none of its blocks and regions is open.

  Main declarations:
    * `Handles.Before`
    * `Placed.Shows.frame`
-/

namespace FortranIR

variable {vs : List ValueId} {σ : ValueId → ValueId}
variable {m : Module} {types : List Ty}

----
-- Growing modules
----

/- Handles that have been given out stay given out. -/
structure Handles.Before (h h' : Handles) : Prop where
  op : h.op ≤ h'.op
  value : h.value ≤ h'.value
  block : h.block ≤ h'.block
  region : h.region ≤ h'.region

theorem Handles.Before.refl (h : Handles) : h.Before h :=
  ⟨.refl, .refl, .refl, .refl⟩

theorem Handles.Before.trans {h₁ : Handles} (hFirst : h₁.Before h₂) (hSecond : h₂.Before h₃) :
    h₁.Before h₃ :=
  ⟨Nat.le_trans hFirst.op hSecond.op, Nat.le_trans hFirst.value hSecond.value,
    Nat.le_trans hFirst.block hSecond.block, Nat.le_trans hFirst.region hSecond.region⟩

/- The handles of a module lie before its next handles. -/
structure Module.Bounded (m : Module) : Prop where
  ops : ∀ k op, m.ops[k]? = some op → k < m.handles.op
  values : ∀ k info, m.values[k]? = some info → k < m.handles.value
  blocks : ∀ k info, m.blocks[k]? = some info → k < m.handles.block ∧
      info.region.index < m.handles.region
  regions : ∀ k info, m.regions[k]? = some info → k < m.handles.region ∧
      (∀ b ∈ info.blocks, b.index < m.handles.block) ∧
      ∀ e ∈ info.layout, ∀ o ∈ e.2, o.index < m.handles.op
  places : ∀ k b, m.places[k]? = some b → k < m.handles.op
  top : ∀ o ∈ m.top, o.index < m.handles.op

/- Regions and the blocks in them lie before the next ones. -/
theorem Module.Bounded.of_regionBlocks (hBounded : m.Bounded)
    (hBlocks : m.regionBlocks r = .ok bs) : r.index < m.handles.region ∧
      ∀ b ∈ bs, b.index < m.handles.block := by
  rcases regionBlocks_eq_ok_iff.mp hBlocks with ⟨region, hRegion, rfl⟩
  exact (hBounded.regions _ region hRegion).imp_right And.left

/-
  The first module has grown into the second one. The values of
  the first one have been replaced as `σ` says, which moves
  placeholders only. Blocks may have been added to the regions
  in `openRegion`, and operations to the blocks in `openBlock`.
-/
structure Module.Frame (σ : ValueId → ValueId) (openRegion : RegionId → Prop)
    (openBlock : BlockId → Prop) (m m' : Module) : Prop where
  handles : m.handles.Before m'.handles
  ops : ∀ (o : OpId) (op : Operation), m.ops[o.index]? = some op → ∃ span, m'.ops[o.index]? =
          some { op with
            operands := op.operands.map σ
            span := span }
  types : ∀ (v : ValueId) (t : Ty), m.typeOf v = .ok t → m'.typeOf (σ v) = .ok t
  values : ∀ (v : ValueId) (info : ValueInfo), m.values[v.index]? = some info →
      info.defined ≠ .placeholder →
      σ v = v ∧ ∃ users, m'.values[v.index]? = some { info with users := users }
  blocks : ∀ (b : BlockId) (info : BlockInfo), m.blocks[b.index]? = some info → ∃ info',
        m'.blocks[b.index]? = some info' ∧ info'.region = info.region ∧
        ((openRegion info.region → ∃ os, m.blockOps b = .ok os) → info'.args = info.args)
  blockOps : ∀ (b : BlockId) (os : List OpId), m.blockOps b = .ok os → ¬ openBlock b →
      m'.blockOps b = .ok os
  regionBlocks : ∀ (r : RegionId) (bs : List BlockId), m.regionBlocks r = .ok bs → ¬ openRegion r →
      m'.regionBlocks r = .ok bs
  placed : ∀ (b : BlockId) (os : List OpId), m.blockOps b = .ok os → ∃ os', m'.blockOps b = .ok os'

namespace Module.Frame

variable {m₁ m₂ : Module}

theorem refl (m : Module) : Frame id openRegion openBlock m m where
  handles := .refl m.handles
  ops := fun _ op hOp => ⟨op.span, by simpa using hOp⟩
  types := fun _ _ hType => hType
  values := fun _ info hInfo _ => ⟨rfl, info.users, hInfo⟩
  blocks := fun _ info hInfo => ⟨info, hInfo, rfl, fun _ => rfl⟩
  blockOps := fun _ _ hOps _ => hOps
  regionBlocks := fun _ _ hBlocks _ => hBlocks
  placed := fun _ os hOps => ⟨os, hOps⟩

/-
  Growing twice. A region that is open in the second step may be
  new, and a block may have had no place; then they need not be
  open for the first module.
-/
theorem trans (hFirst : Frame σ₁ openRegion openBlock m₁ m₂)
    (hSecond : Frame σ₂ openRegion₂ openBlock₂ m₂ m₃)
    (hRegions : ∀ r, openRegion₂ r → openRegion r ∨ m₁.handles.region ≤ r.index)
    (hBlocks : ∀ b os, openBlock₂ b → m₁.blockOps b = .ok os → openBlock b)
    (hBounded : m₁.Bounded) : Frame (σ₂ ∘ σ₁) openRegion openBlock m₁ m₃ where
  handles := hFirst.handles.trans hSecond.handles
  ops := by
    intro o op hOp
    rcases hFirst.ops o op hOp with ⟨span₁, hOp₁⟩
    rcases hSecond.ops o _ hOp₁ with ⟨span₂, hOp₂⟩
    exact ⟨span₂, by simpa using hOp₂⟩
  types := by
    intro v t hType
    exact hSecond.types _ t (hFirst.types v t hType)
  values := by
    intro v info hInfo hDefined
    rcases hFirst.values v info hInfo hDefined with ⟨hSame₁, users₁, hInfo₁⟩
    rcases hSecond.values v _ hInfo₁ hDefined with ⟨hSame₂, users₂, hInfo₂⟩
    refine ⟨?_, users₂, hInfo₂⟩
    simp only [Function.comp_apply, hSame₁, hSame₂]
  blocks := by
    intro b info hInfo
    rcases hFirst.blocks b info hInfo with ⟨info₁, hInfo₁, hRegion₁, hArgs₁⟩
    rcases hSecond.blocks b info₁ hInfo₁ with ⟨info₂, hInfo₂, hRegion₂, hArgs₂⟩
    refine ⟨info₂, hInfo₂, hRegion₂.trans hRegion₁, ?_⟩
    intro hPlaced
    rw [hArgs₂, hArgs₁ hPlaced]
    intro hOpen
    rw [hRegion₁] at hOpen
    rcases hRegions info.region hOpen with hOld | hNew
    · rcases hPlaced hOld with ⟨os, hOps⟩
      exact hFirst.placed b os hOps
    · have hKey := (hBounded.blocks b.index info hInfo).2
      omega
  blockOps := by
    intro b os hOps hClosed
    apply hSecond.blockOps b os (hFirst.blockOps b os hOps hClosed)
    intro hOpen
    exact hClosed (hBlocks b os hOpen hOps)
  regionBlocks := by
    intro r bs hBlocks hClosed
    apply hSecond.regionBlocks r bs (hFirst.regionBlocks r bs hBlocks hClosed)
    intro hOpen
    rcases hRegions r hOpen with hOld | hNew
    · exact hClosed hOld
    · rcases Module.regionBlocks_eq_ok_iff.mp hBlocks with ⟨info, hInfo, -⟩
      have hKey := (hBounded.regions r.index info hInfo).1
      omega
  placed := by
    intro b os hOps
    rcases hFirst.placed b os hOps with ⟨os₁, hOps₁⟩
    exact hSecond.placed b os₁ hOps₁

/- A change that adds entities and users, and arguments of blocks. -/
theorem of_additions (hHandles : m₁.handles.Before m₂.handles) (hOps : ∀ (k : Nat) (op : Operation),
        m₁.ops[k]? = some op → ∃ span, m₂.ops[k]? = some { op with span := span }) (hValues :
      ∀ (k : Nat) (info : ValueInfo), m₁.values[k]? = some info →
        ∃ users, m₂.values[k]? = some { info with users := users }) (hBlocks :
      ∀ (b : BlockId) (info : BlockInfo), m₁.blocks[b.index]? = some info → ∃ info',
        m₂.blocks[b.index]? = some info' ∧ info'.region = info.region ∧
        ((openRegion info.region → ∃ os, m₁.blockOps b = .ok os) → info'.args = info.args))
    (hRegions :
      ∀ (k : Nat) (info : RegionInfo), m₁.regions[k]? = some info → m₂.regions[k]? = some info) :
    Frame id openRegion openBlock m₁ m₂ := by
  have hBlockOps : ∀ b os, m₁.blockOps b = .ok os → m₂.blockOps b = .ok os := by
    intro b os hOld
    rcases blockOps_eq_ok_iff.mp hOld with ⟨info, region, hInfo, hRegion, hFound⟩
    rcases hBlocks b info hInfo with ⟨info', hInfo', hSame, -⟩
    exact blockOps_eq_ok_iff.mpr ⟨info', region, hInfo', hSame ▸ hRegions _ region hRegion, hFound⟩
  refine
    { handles := hHandles
      ops := ?_
      types := ?_
      values := ?_
      blocks := hBlocks
      blockOps := fun b os hOld _ => hBlockOps b os hOld
      regionBlocks := ?_
      placed := fun b os hOld => ⟨os, hBlockOps b os hOld⟩ }
  · intro o op hOp
    rcases hOps _ op hOp with ⟨span, hOp'⟩
    exact ⟨span, by simpa using hOp'⟩
  · intro v t hType
    rcases typeOf_eq_ok_iff.mp hType with ⟨info, hInfo, hSame⟩
    rcases hValues _ info hInfo with ⟨users, hInfo'⟩
    exact typeOf_eq_ok_iff.mpr ⟨_, hInfo', hSame⟩
  · intro v info hInfo _
    exact ⟨rfl, hValues _ info hInfo⟩
  · intro r bs hOld _
    rcases regionBlocks_eq_ok_iff.mp hOld with ⟨info, hInfo, hSame⟩
    exact regionBlocks_eq_ok_iff.mpr ⟨info, hRegions _ info hInfo, hSame⟩

/- A change of values and operands only. -/
theorem of_replacement (hHandles : m₁.handles.Before m₂.handles) (hOps :
      ∀ (k : Nat) (op : Operation), m₁.ops[k]? = some op → m₂.ops[k]? =
          some { op with operands := op.operands.map σ }) (hTypes : ∀ (v : ValueId) (t : Ty),
        m₁.typeOf v = .ok t → m₂.typeOf (σ v) = .ok t) (hValues :
      ∀ (v : ValueId) (info : ValueInfo), m₁.values[v.index]? = some info →
        info.defined ≠ .placeholder → σ v = v ∧ ∃ users, m₂.values[v.index]? =
              some { info with users := users }) (hBlocks : m₂.blocks = m₁.blocks)
    (hRegions : m₂.regions = m₁.regions) : Frame σ openRegion openBlock m₁ m₂ := by
  have hBlockOps : ∀ b, m₂.blockOps b = m₁.blockOps b := by
    intro b
    unfold Module.blockOps Module.block Module.region
    rw [hBlocks, hRegions]
  exact
    { handles := hHandles
      ops := fun o op hOp => ⟨op.span, hOps _ op hOp⟩
      types := hTypes
      values := hValues
      blocks := fun b info hInfo => ⟨info, hBlocks ▸ hInfo, rfl, fun _ => rfl⟩
      blockOps := fun b os hOld _ => (hBlockOps b).trans hOld
      regionBlocks := fun r bs hOld _ => by rwa [Module.regionBlocks, Module.region, hRegions]
      placed := fun b os hOld => ⟨os, (hBlockOps b).trans hOld⟩ }

end Module.Frame

----
-- Code in growing modules
----

section Growing

variable {α : Type} {m' : Module} {env env' : α → Option ValueId}
variable {names : List (α × Ty)} {n : OpNode α}

theorem Module.DefinesAll.exists_info (hAll : m.DefinesAll defined vs types)
    (hMember : v ∈ vs) : ∃ i info, m.values[v.index]? = some info ∧ info.type ∈ types ∧
      info.defined = defined i := by
  rcases List.mem_iff_getElem?.mp hMember with ⟨i, hIndex⟩
  have hBound : i < vs.length := (List.getElem?_eq_some_iff.mp hIndex).1
  rw [hAll.1] at hBound
  rcases hAll.2 i v _ hIndex (List.getElem?_eq_getElem hBound) with ⟨users, hInfo⟩
  exact ⟨i, _, hInfo, List.getElem_mem hBound, rfl⟩

section

variable (hAll : m.DefinesAll defined vs types) (hReal : ∀ i, defined i ≠ .placeholder)
variable (hFrame : m.Frame σ openRegion openBlock m')
include hAll hReal hFrame

/- Values that are defined are not moved. -/
theorem Module.DefinesAll.fixed : ∀ v ∈ vs, σ v = v := by
  intro v hMember
  rcases hAll.exists_info hMember with ⟨i, info, hInfo, -, hDefined⟩
  apply (hFrame.values v info hInfo _).1
  rw [hDefined]
  exact hReal i

theorem Module.DefinesAll.frame : m'.DefinesAll defined vs types := by
  refine ⟨hAll.1, ?_⟩
  intro i v t hValue hType
  rcases hAll.2 i v t hValue hType with ⟨users, hInfo⟩
  exact (hFrame.values v _ hInfo (hReal i)).2

end

variable (hFrame : m.Frame σ openRegion openBlock m')
variable (hEnv : ∀ n v, env n = some v → env' n = some (σ v))
include hEnv

/- Names follow the values that they stand for. -/
theorem map_env_frame (hNames : vs.map some = names.map fun x => env x.1) :
    (vs.map σ).map some = names.map fun x => env' x.1 := by
  induction vs generalizing names with
  | nil =>
    cases names with
    | nil => rfl
    | cons x names => simp at hNames
  | cons v vs ih =>
    cases names with
    | nil => simp at hNames
    | cons x names =>
      simp only [List.map_cons, List.cons.injEq] at hNames ⊢
      exact ⟨(hEnv x.1 v hNames.1.symm).symm, ih hNames.2⟩

/- Names of values that are not moved keep them. -/
theorem map_env_fixed (hFixed : ∀ v ∈ vs, σ v = v)
    (hNames : vs.map some = names.map fun x => env x.1) :
    vs.map some = names.map fun x => env' x.1 := by
  have hMoved := map_env_frame hEnv hNames
  rwa [List.map_congr_left hFixed, List.map_id'] at hMoved

include hFrame

theorem OpNode.Uses.frame (hUses : n.Uses m env succ op) (hSucc : ∀ b i, succ b i → succ' b i)
    (span : Option Span) :
    n.Uses m' env' succ' { op with operands := op.operands.map σ, span := span } where
  kind := hUses.kind
  attrs := hUses.attrs
  operands := map_env_frame hEnv hUses.operands
  types := by
    intro x hMember v hValue
    have hSome : env x.1 ∈ op.operands.map some := by
      rw [hUses.operands]
      exact List.mem_map_of_mem hMember
    rcases List.mem_map.mp hSome with ⟨w, -, hOld⟩
    have hNew := hEnv x.1 w hOld.symm
    rw [hNew, Option.some.injEq] at hValue
    rw [← hValue]
    exact hFrame.types w x.2 (hUses.types x hMember w hOld.symm)
  successors := hUses.successors.imp fun b i => hSucc b i

theorem OpNode.Defines.frame (hDefines : n.Defines m env o op) (span : Option Span) :
    n.Defines m' env' o { op with operands := op.operands.map σ, span := span } where
  results := by
    have hFixed := hDefines.defined.fixed (fun _ => by simp) hFrame
    apply map_env_fixed hEnv _ hDefines.results
    intro v hMember
    exact hFixed v (List.mem_of_mem_take hMember)
  defined := hDefines.defined.frame (fun _ => by simp) hFrame

omit hEnv in
theorem Module.IsIn.frame (hIn : m.IsIn r b) : m'.IsIn r b := by
  rcases hIn with ⟨info, hInfo, hRegion⟩
  rcases hFrame.blocks b info hInfo with ⟨info', hInfo', hSame, -⟩
  exact ⟨info', hInfo', hSame.trans hRegion⟩

theorem Module.DefinesArgs.frame (hArgs : m.DefinesArgs env b args)
    (hPlaced : m.blockOps b = .ok os) : m'.DefinesArgs env' b args := by
  rcases hArgs with ⟨info, hInfo, hNames, hDefined⟩
  rcases hFrame.blocks b info hInfo with ⟨info', hInfo', -, hSame⟩
  have hFixed := hDefined.fixed (fun _ => by simp) hFrame
  refine ⟨info', hInfo', ?_, ?_⟩
  · rw [hSame fun _ => ⟨os, hPlaced⟩]
    exact map_env_fixed hEnv hFixed hNames
  · rw [hSame fun _ => ⟨os, hPlaced⟩]
    exact hDefined.frame (fun _ => by simp) hFrame

/-
  Code stays as it is while the module grows, if its blocks and
  regions are not open.
-/
theorem Placed.Shows.frame {c : Placed α l} (hShows : c.Shows m env succ)
    (hSucc : ∀ b i, succ b i → succ' b i)
    (hRegions : ∀ r ∈ c.regionInfos, ¬ openRegion r) (hBlocks : ∀ b ∈ c.blockIds, ¬ openBlock b) :
    c.Shows m' env' succ' := by
  induction c generalizing succ succ' with
  | nil => trivial
  | op h inner rest ihInner ihRest =>
    rcases h with ⟨o, n⟩
    rcases hShows with ⟨⟨op, hOp, hUses, hDefines, hInner⟩, hShowsInner, hShowsRest⟩
    simp only [Forest.regionInfos, List.mem_append] at hRegions
    simp only [blockIds, Forest.gather, List.nil_append, List.mem_append] at hBlocks
    rcases hFrame.ops o op hOp with ⟨span, hOp'⟩
    refine ⟨⟨_, hOp', hUses.frame hFrame hEnv hSucc span,
      hDefines.frame hFrame hEnv span, hInner⟩, ?_, ?_⟩
    · exact ihInner hShowsInner hSucc (fun r hMember => hRegions r (.inl hMember))
        (fun b hMember => hBlocks b (.inl hMember))
    · exact ihRest hShowsRest hSucc (fun r hMember => hRegions r (.inr hMember))
        (fun b hMember => hBlocks b (.inr hMember))
  | region r inner rest ihInner ihRest =>
    rcases hShows with ⟨⟨hHeads, hNodup, hIn⟩, hShowsInner, hShowsRest⟩
    simp only [Forest.regionInfos, List.mem_cons, List.mem_append] at hRegions
    simp only [blockIds, Forest.gather, List.mem_append] at hBlocks
    refine ⟨⟨?_, hNodup, ?_⟩, ?_, ?_⟩
    · exact hFrame.regionBlocks r _ hHeads (hRegions r (.inl rfl))
    · exact fun b hMember => (hIn b hMember).frame hFrame
    · exact ihInner hShowsInner (fun _ _ hAt => hAt)
        (fun r hMember => hRegions r (.inr (.inl hMember)))
        (fun b hMember => hBlocks b (.inl hMember))
    · exact ihRest hShowsRest hSucc (fun r hMember => hRegions r (.inr (.inr hMember)))
        (fun b hMember => hBlocks b (.inr hMember))
  | block h inner rest ihInner ihRest =>
    rcases h with ⟨b, args⟩
    rcases hShows with ⟨hArgs, hOps, hShowsInner, hShowsRest⟩
    simp only [Forest.regionInfos, List.mem_append] at hRegions
    simp only [blockIds, Forest.gather, List.cons_append,
      List.nil_append, List.mem_cons, List.mem_append] at hBlocks
    refine ⟨hArgs.frame hFrame hEnv hOps, ?_, ?_, ?_⟩
    · exact hFrame.blockOps b _ hOps (hBlocks b (.inl rfl))
    · exact ihInner hShowsInner hSucc (fun r hMember => hRegions r (.inl hMember))
        (fun b hMember => hBlocks b (.inr (.inl hMember)))
    · exact ihRest hShowsRest hSucc (fun r hMember => hRegions r (.inr hMember))
        (fun b hMember => hBlocks b (.inr (.inr hMember)))

end Growing

end FortranIR
