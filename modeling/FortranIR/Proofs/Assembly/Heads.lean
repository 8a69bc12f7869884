import FortranIR.Proofs.Assembly.Blocks

/-
  This file states what the creation of an operation does to a
  draft: its operands and successors are what their names stand
  for, its results are new, and its regions are empty.

  Main declarations:
    * `Assemble.Created`
    * `Assemble.head_steps`
-/

namespace FortranIR

variable {h : OpHead} {m : Module}
variable {o : OpId}

namespace Assemble

variable {top : List OpId}
variable {d : Draft}

----
-- New operations
----

/- The operation that a head creates. -/
def headOp (m : Module) (h : OpHead) (span : Span) (count : Nat) (vs : List ValueId)
    (bs : List BlockId) : Operation where
  kind := h.kind
  operands := vs
  results := Module.valueIds m.handles.value h.resultTypes.length
  attrs := h.attrs
  regions := Module.regionIds m.handles.region count
  successors := bs
  span := some span

/- A module to which an operation has been added. -/
structure Created (m m' : Module) (opened : BlockId → Prop) (types : List Ty)
    (op : Operation) : Prop where
  entry : m'.ops[m.handles.op]? = some op
  ops : ∀ k : Nat, k ≠ m.handles.op → m'.ops[k]? = m.ops[k]?
  kept : ∀ (k : Nat) (info : ValueInfo), m.values[k]? = some info →
      ∃ users, m'.values[k]? = some { info with users := users }
  defined : m'.DefinesAll (.result ⟨m.handles.op⟩) op.results types
  regions : ∀ r ∈ op.regions, r.index < m'.handles.region ∧ m'.regionBlocks r = .ok []
  assembled : m'.Assembled
  frame : m.Frame id (fun _ => False) opened m'
  handles : m'.handles.op = m.handles.op + 1

/- A new operation with a span, before it has a place. -/
theorem spanned_run (h : OpHead) (span : Span) (count : Nat)
    (hAssembled : m.Assembled) (hOperands : ∀ v ∈ vs, ∃ info, m.values[v.index]? = some info)
    (hSuccessors : ∀ b ∈ bs, ∃ info, m.blocks[b.index]? = some info) : ∃ m₁ m₂,
      Module.newOp h.kind vs h.resultTypes h.attrs count bs m = .ok ⟨m.handles.op⟩ m₁ ∧
      Module.setSpan ⟨m.handles.op⟩ span m₁ = .ok () m₂ ∧
      Created m m₂ (fun _ => False) h.resultTypes (headOp m h span count vs bs) ∧
      m₂.Newest ⟨m.handles.op⟩ ∧ m₂.top = m.top ∧ m₂.places = m.places := by
  rcases Module.newOp_run h.kind h.resultTypes h.attrs count hOperands hSuccessors with
    ⟨m₁, hRun, hAdds⟩
  have hAssembled₁ := hAssembled.newOp hRun
  rcases hAdds with ⟨values, blocks, regions, hModule, hValues, hBlocks, hRegions⟩
  have hSpan : Module.setSpan ⟨m.handles.op⟩ span m₁ = .ok () { m₁ with
      ops := m₁.ops.modify m.handles.op fun op => { op with span := some span } } := by
    rw [hModule]
    exact Module.updateOp_eq_ok_iff.mpr
      ⟨⟨_, getElem?_insert_nat.trans (if_pos rfl)⟩, rfl⟩
  refine ⟨_, _, hRun, hSpan, ?_⟩
  subst hModule
  have hBounded := hAssembled.bounded
  have hKept : ∀ (k : Nat) (info : ValueInfo), m.values[k]? = some info →
        ∃ users, values[k]? = some { info with users := users } := by
    intro k info hInfo
    have hBelow := hBounded.values k info hInfo
    rw [hValues k, if_neg (by omega), hInfo]
    split
    · exact ⟨_, rfl⟩
    · exact ⟨info.users, rfl⟩
  have hEmpty : ∀ r ∈ Module.regionIds m.handles.region count,
        regions[r.index]? = some { parent := ⟨m.handles.op⟩ } := by
    intro r hMember
    rw [hRegions, if_pos (Module.mem_regionIds.mp hMember)]
  have hEntry : ((m.ops.insert m.handles.op { headOp m h span count vs bs with span := none }
        ).modify m.handles.op fun op => { op with span := some span })[m.handles.op]? =
      some (headOp m h span count vs bs) := by
    rw [getElem?_modify_nat, if_pos rfl, getElem?_insert_nat, if_pos rfl]
    rfl
  have hOps : ∀ k : Nat, k ≠ m.handles.op →
        ((m.ops.insert m.handles.op { headOp m h span count vs bs with span := none }
        ).modify m.handles.op fun op => { op with span := some span })[k]? = m.ops[k]? := by
    intro k hOther
    rw [getElem?_modify_nat, if_neg (Ne.symm hOther), getElem?_insert_nat, if_neg (Ne.symm hOther)]
  rcases hAssembled.unknown (o := ⟨m.handles.op⟩) .refl with
    ⟨hUnplaced, hOutside⟩
  refine ⟨⟨hEntry, hOps, hKept, ?_, ?_, ?_, ?_, rfl⟩,
    ⟨rfl, ⟨_, hEntry, ?_⟩, hUnplaced, hOutside⟩, rfl, rfl⟩
  · apply Module.definesAll_new
    intro k hAbove hBelow
    rw [hValues k, if_pos ⟨hAbove, hBelow⟩]
  · intro r hMember
    exact ⟨(Module.mem_regionIds.mp hMember).2,
      Module.regionBlocks_eq_ok_iff.mpr ⟨_, hEmpty r hMember, rfl⟩⟩
  · exact hAssembled₁.change (c := .setSpan ⟨m.handles.op⟩ span) rfl nofun hSpan
  · refine .of_additions ?_ ?_ hKept ?_ ?_
    · exact ⟨Nat.le_succ _, Nat.le_add_right _ _, .refl, Nat.le_add_right _ _⟩
    · intro k op hOp
      exact ⟨op.span, (hOps k (Nat.ne_of_lt (hBounded.ops k op hOp))).trans hOp⟩
    · intro b info hInfo
      rw [hBlocks, hInfo]
      refine ⟨_, rfl, ?_⟩
      split <;> exact ⟨rfl, fun _ => rfl⟩
    · intro k info hInfo
      have hBelow := (hBounded.regions k info hInfo).1
      rw [hRegions k, if_neg (by omega)]
      exact hInfo
  · exact fun r hMember => Module.regionBlocks_eq_ok_iff.mpr ⟨_, hEmpty r hMember, rfl⟩

----
-- Places
----

/- A module in which an operation has got a place in a block. -/
theorem appendOp_frame (hAssembled : m.Assembled) (hNewest : m.Newest o)
    (hOps : m.blockOps b = .ok os) (hAbsent : o ∉ os) : ∃ m',
      Module.appendOp b o m = .ok () m' ∧ m'.ops = m.ops ∧ m'.values = m.values ∧ m'.top = m.top ∧
      m'.places = m.places.insert o.index b ∧ m'.handles = m.handles ∧ m'.Assembled ∧
      m.Frame id (fun _ => False) (fun c => b = c) m' ∧
      m'.blockOps b = .ok (os ++ [o]) ∧ ∀ r, m'.regionBlocks r = m.regionBlocks r := by
  rcases Module.blockOps_eq_ok_iff.mp hOps with ⟨info, region, hInfo, hRegion, hFound⟩
  have hRun := Module.appendOp_eq_ok_iff.mpr
    ⟨info, region, os, hNewest.unplaced, hInfo, hRegion, hFound, hAbsent, rfl⟩
  let f := fun r : RegionInfo => { r with layout := Module.updateLayout b (· ++ [o]) r.layout }
  let m' : Module :=
    { m with
      regions := m.regions.modify info.region.index f
      places := m.places.insert o.index b }
  -- A region keeps its blocks, and their operations but for `b`.
  have hRegions : ∀ k : Nat, m'.regions[k]? = m.regions[k]?.map fun r =>
          if info.region.index = k then f r else r :=
    fun _ => getElem?_modify_map
  have hSameBlocks : ∀ r : RegionInfo, (f r).blocks = r.blocks :=
    fun r => Module.updateLayout_blocks b (· ++ [o]) r.layout
  have hRegionBlocks : ∀ r, m'.regionBlocks r = m.regionBlocks r := by
    intro r
    unfold Module.regionBlocks Module.region
    rw [hRegions]
    cases m.regions[r.index]? with
    | none => rfl
    | some old =>
      rw [Option.map_some]
      split
      · simp only [Fault.orElse, bind, Except.bind, hSameBlocks]
      · rfl
  have hBlockOps : ∀ c os', m.blockOps c = .ok os' →
        m'.blockOps c = .ok (if c = b then os' ++ [o] else os') := by
    intro c os' hOld
    rcases Module.blockOps_eq_ok_iff.mp hOld with ⟨info', region', hInfo', hRegion', hFound'⟩
    refine Module.blockOps_eq_ok_iff.mpr ⟨info', _, hInfo', by rw [hRegions, hRegion']; rfl, ?_⟩
    have hUpdated : (f region').ops? c = some (if c = b then os' ++ [o] else os') := by
      change (Module.updateLayout b (· ++ [o]) _).lookup c = _
      rw [Module.lookup_updateLayout, show region'.layout.lookup c = some os' from hFound']
      rfl
    by_cases hSame : info.region.index = info'.region.index
    · simp only [hSame, if_true]
      exact hUpdated
    · have hBlock : c ≠ b := by
        rintro rfl
        rw [hInfo, Option.some.injEq] at hInfo'
        exact hSame (by rw [hInfo'])
      simp only [hSame, hBlock, if_false]
      exact hFound'
  refine ⟨m', hRun, rfl, rfl, rfl, rfl, rfl, hAssembled.appendOp hNewest hRun, ?_, ?_, hRegionBlocks⟩
  · refine { (.refl m : m.Frame id (fun _ => False) (fun c => b = c) m) with
        blockOps := ?_
        regionBlocks := fun r bs hBlocks _ => by
          rw [hRegionBlocks]
          exact hBlocks
        placed := fun c os' hOld => ⟨_, hBlockOps c os' hOld⟩ }
    intro c os' hOld hOther
    have hKept := hBlockOps c os' hOld
    rwa [if_neg (Ne.symm hOther)] at hKept
  · have hKept := hBlockOps b os hOps
    rwa [if_pos rfl] at hKept

/- An operation that is new is not in a block. -/
theorem notMem_blockOps (hBounded : m.Bounded) (hOps : m.blockOps b = .ok os)
    (hNew : m.handles.op ≤ o.index) : o ∉ os := by
  intro hMember
  rcases Module.blockOps_eq_ok_iff.mp hOps with ⟨info, region, -, hRegion, hFound⟩
  have hBelow := (hBounded.regions _ region hRegion).2.2 _ (mem_of_lookup hFound) o hMember
  omega

/- An operation of the module level comes last there. -/
def topAfter (place : Option BlockId) (top os : List OpId) : List OpId := match place with
  | none => top ++ os
  | some _ => top

/- A new operation gets its place, and all else stays. -/
theorem create_run (h : OpHead) (span : Span) (count : Nat)
    (place : Option BlockId) (hAssembled : m.Assembled)
    (hOperands : ∀ v ∈ vs, ∃ info, m.values[v.index]? = some info)
    (hSuccessors : ∀ b ∈ bs, ∃ info, m.blocks[b.index]? = some info)
    (hPlace : ∀ b ∈ place, ∃ os, m.blockOps b = .ok os) : ∃ m₁ m₂ m₃,
      Module.newOp h.kind vs h.resultTypes h.attrs count bs m = .ok ⟨m.handles.op⟩ m₁ ∧
      Module.setSpan ⟨m.handles.op⟩ span m₁ = .ok () m₂ ∧
      (match place with
        | some b => Module.appendOp b ⟨m.handles.op⟩
        | none => Module.pushTop ⟨m.handles.op⟩) m₂ = .ok () m₃ ∧
      Created m m₃ (fun c => place = some c) h.resultTypes (headOp m h span count vs bs) ∧
      m₃.top = topAfter place m.top [⟨m.handles.op⟩] ∧
      (∀ b os, place = some b → m.blockOps b = .ok os →
        m₃.blockOps b = .ok (os ++ [⟨m.handles.op⟩])) ∧
      ∀ o, o = ⟨m.handles.op⟩ ∨ m.HasPlace o → m₃.HasPlace o := by
  rcases spanned_run h span count hAssembled hOperands hSuccessors with
    ⟨m₁, m₂, hNew, hSpan, hCreated, hNewest, hTop, hPlaces⟩
  -- the place changes neither operations nor values
  have hPlaced : ∀ {m₃ : Module} {opened : BlockId → Prop}, m₃.ops = m₂.ops →
        m₃.values = m₂.values → m₃.handles = m₂.handles → m₃.Assembled →
        (∀ r, m₃.regionBlocks r = m₂.regionBlocks r) → m₂.Frame id (fun _ => False) opened m₃ →
        Created m m₃ opened h.resultTypes (headOp m h span count vs bs) := by
    intro m₃ opened hOps hValues hHandles hNext hRegions hFrame
    refine ⟨hOps ▸ hCreated.entry, hOps ▸ hCreated.ops, hValues ▸ hCreated.kept,
      hCreated.defined.frame (fun _ => by simp) hFrame, ?_, hNext, ?_, hHandles ▸ hCreated.handles⟩
    · intro r hMember
      rw [hHandles, hRegions]
      exact hCreated.regions r hMember
    · have hWide : m.Frame id (fun _ => False) opened m₂ := (Module.Frame.refl m).trans
          hCreated.frame (fun _ hOpen => .inl hOpen) (fun _ _ hOpen _ => hOpen.elim)
          hAssembled.bounded
      exact hWide.trans hFrame (fun _ hOpen => .inl hOpen) (fun _ _ hOpen _ => hOpen)
        hAssembled.bounded
  cases place with
  | some b =>
    rcases hPlace b rfl with ⟨os, hOld⟩
    rcases appendOp_frame hCreated.assembled hNewest
      (hCreated.frame.blockOps b os hOld fun hOpen => hOpen)
      (notMem_blockOps hAssembled.bounded hOld .refl) with
      ⟨m₃, hRun, hOps, hValues, hSame, hInserts, hHandles, hNext, hFrame, hLast, hRegions⟩
    refine ⟨m₁, m₂, m₃, hNew, hSpan, hRun, hPlaced hOps hValues hHandles hNext hRegions ?_,
      hSame.trans hTop, ?_, ?_⟩
    · simpa only [Option.some.injEq] using hFrame
    · rintro _ os' ⟨⟩ hOld'
      cases hOld.symm.trans hOld'
      exact hLast
    · intro o hCase
      rw [Module.HasPlace, hInserts, getElem?_insert_nat, hPlaces, hSame, hTop]
      split
      · exact .inl nofun
      · rename_i hOther
        exact hCase.resolve_left fun hEqual => hOther (hEqual ▸ rfl)
  | none =>
    have hRun := Module.pushTop_eq_ok_iff.mpr ⟨hNewest.outside, rfl⟩
    refine ⟨m₁, m₂, _, hNew, hSpan, hRun, hPlaced rfl rfl rfl
      (hCreated.assembled.pushTop hNewest hRun) (fun _ => rfl) ?_, ?_, nofun, ?_⟩
    · exact .of_additions (.refl _) (fun k op hOp => ⟨op.span, hOp⟩)
        (fun k info hInfo => ⟨info.users, hInfo⟩)
        (fun b info hInfo => ⟨info, hInfo, rfl, fun _ => rfl⟩) (fun k info hInfo => hInfo)
    · exact congrArg (· ++ _) hTop
    · rintro o (rfl | hPlace | hMember)
      · exact .inr (List.mem_append_right _ (.head _))
      · exact .inl (hPlaces ▸ hPlace)
      · exact .inr (List.mem_append_left _ (hTop ▸ hMember))

----
-- Drafts
----

/- The results of a new operation wait for their names. -/
theorem Created.good
    (hCreated : Created d.module m opened h.resultTypes op)
    (hResults : op.results = Module.valueIds d.module.handles.value h.resultTypes.length)
    (hTop : m.top = top') (hGood : d.Good rule all done reserved top)
    (hOperands : ∀ v ∈ op.operands, ∃ n, known? d n = some v) :
    { d with module := m : Draft }.Good rule all done (op.results ++ reserved) top' := by
  have hWithout : { d with module := m : Draft }.Good rule all done reserved top' := by
    refine hGood.moved hCreated.assembled hTop (List.Sublist.refl _)
      (fun v info hInfo _ => hCreated.kept _ info hInfo) (fun o other v hOther hMember => ?_) _
    by_cases hNew : o.index = d.module.handles.op
    · rw [hNew, hCreated.entry, Option.some.injEq] at hOther
      subst hOther
      rcases hOperands v hMember with ⟨n, hName⟩
      rcases hGood.exists_of_known hName with ⟨info, hInfo, hWaits, -⟩
      exact ⟨info, hInfo, hWaits⟩
    · rw [hCreated.ops _ hNew] at hOther
      exact hGood.operands o other v hOther hMember
  have hDefined := hCreated.defined
  rw [hResults] at hDefined ⊢
  exact hWithout.reserve hDefined (fun _ => by simp) hGood.below

/- What the creation of an operation does to a draft. -/
structure HeadDone (rule : Prop) (all done : List (String × Ty)) (reserved : List ValueId)
    (top : List OpId) (around doneLabels : List String) (place : Option BlockId) (h : OpHead)
    (count : Nat) (d d' : Draft) (o : OpId) (op : Operation) : Prop where
  goes : Goes rule all done (op.results ++ reserved)
      (topAfter place top [o]) around doneLabels place id d d'
  entry : d'.module.ops[o.index]? = some op
  uses : (Text.node around h).Uses d'.module (known? d') (d'.Successor around) op
  defined : d'.module.DefinesAll (.result o) op.results h.resultTypes
  fresh : d.module.handles.op ≤ o.index ∧ o.index < d'.module.handles.op
  regions : op.regions.Nodup ∧ op.regions.length = count ∧ ∀ r ∈ op.regions,
        d.module.handles.region ≤ r.index ∧ r.index < d'.module.handles.region ∧
        d'.module.regionBlocks r = .ok []
  placed : ∀ b os, place = some b → d.module.blockOps b = .ok os →
      d'.module.blockOps b = .ok (os ++ [o])

theorem successor_exists (hAt : d.At rule around doneLabels place)
    (hSuccessor : d.Successor around b i) : ∃ info, d.module.blocks[b.index]? = some info := by
  rcases hSuccessor with ⟨labels, hSome, n, label, hFound, rfl, -⟩
  cases place with
  | none =>
    rw [hAt.1] at hSome
    cases hSome
  | some place =>
    rcases hAt with ⟨labels', os, hSome', hSound, -⟩
    cases hSome.symm.trans hSome'
    rcases hSound.blocks n label hFound with ⟨info, hInfo, -⟩
    exact ⟨info, hInfo⟩

/- The names of operands stand for the operands. -/
theorem means_operands (hMeans : List.Forall₂ (Means d) vs names) :
    vs.map some = names.map fun x => known? d x.1 := by
  induction hMeans with
  | nil => rfl
  | cons hFirst _ ih => rw [List.map_cons, List.map_cons, ih, hFirst.1]

theorem create_done (span : Span) (count : Nat)
    (hGood : d.Good rule all done reserved top) (hAt : d.At rule around doneLabels place)
    (hOperands : List.Forall₂ (Means d) vs (h.operands.map TypedName.entry)) (hSuccessors :
      List.Forall₂ (d.Successor around) bs (h.successors.map fun s => around.idxOf s.text)) :
    ∃ m₁ m₂ m₃, Module.newOp h.kind vs h.resultTypes h.attrs count bs
        d.module = .ok ⟨d.module.handles.op⟩ m₁ ∧
      Module.setSpan ⟨d.module.handles.op⟩ span m₁ = .ok () m₂ ∧
      (match place with
        | some b => Module.appendOp b ⟨d.module.handles.op⟩
        | none => Module.pushTop ⟨d.module.handles.op⟩) m₂ = .ok () m₃ ∧
      HeadDone rule all done reserved top around doneLabels place h count d { d with module := m₃ }
        ⟨d.module.handles.op⟩ (headOp d.module h span count vs bs) := by
  have hKnown : ∀ v ∈ vs, ∃ n, known? d n = some v := by
    intro v hMember
    rcases forall₂_mem_left hOperands hMember with ⟨x, -, hMeans⟩
    exact ⟨x.1, hMeans.1⟩
  have hValues : ∀ v ∈ vs, ∃ info, d.module.values[v.index]? = some info := by
    intro v hMember
    rcases hKnown v hMember with ⟨n, hName⟩
    rcases hGood.exists_of_known hName with ⟨info, hInfo, -⟩
    exact ⟨info, hInfo⟩
  have hBlocks : ∀ b ∈ bs, ∃ info, d.module.blocks[b.index]? = some info := by
    intro b hMember
    rcases forall₂_mem_left hSuccessors hMember with ⟨i, -, hNamed⟩
    exact successor_exists hAt hNamed
  have hOps : ∀ b ∈ place, ∃ os, d.module.blockOps b = .ok os := by
    rintro b ⟨⟩
    rcases hAt with ⟨labels, os, -, -, hOps⟩
    exact ⟨os, hOps⟩
  rcases create_run h span count place hGood.assembled hValues hBlocks hOps with
    ⟨m₁, m₂, m₃, hNew, hSpan, hRun, hCreated, hTop, hPlaced, -⟩
  have hLeads : d.Leads id (fun _ => False) (fun c => place = some c) { d with module := m₃ } :=
    ⟨hCreated.frame, fun _ _ hName => hName⟩
  refine ⟨m₁, m₂, m₃, hNew, hSpan, hRun, ?_⟩
  refine
    { goes := ⟨?_, hLeads, hAt.keep hLeads rfl fun _ _ hOpen => hOpen, .of_eq rfl⟩
      entry := hCreated.entry
      uses := ?_
      defined := hCreated.defined
      fresh := ⟨.refl, hCreated.handles ▸ Nat.lt_succ_self _⟩
      regions := ?_
      placed := hPlaced }
  · exact hCreated.good rfl (hGood.top ▸ hTop) hGood hKnown
  · refine
      { kind := rfl
        attrs := rfl
        operands := means_operands (d := d) hOperands
        types := ?_
        successors := hSuccessors }
    intro x hMember v (hName : known? d x.1 = some v)
    rcases forall₂_mem_right hOperands hMember with ⟨w, -, hMeans⟩
    cases hMeans.1.symm.trans hName
    exact hCreated.frame.types v x.2 hMeans.2
  · refine ⟨Module.nodup_regionIds _ _, by simp [headOp, Module.regionIds], fun r hMember => ?_⟩
    exact ⟨(Module.mem_regionIds.mp hMember).1, hCreated.regions r hMember⟩

theorem create_grows (place : Option BlockId) (span : Span) (h : OpHead) (count : Nat)
    (vs : List ValueId) (bs : List BlockId) : Grows (do
      let o ← edit (Module.newOp h.kind vs h.resultTypes h.attrs count bs)
      edit (Module.setSpan o span)
      match place with
      | some b => edit (Module.appendOp b o)
      | none => edit (Module.pushTop o)
      return o) := by
  refine .bind (.edit _) fun o => .bind (.edit _) fun _ => ?_
  cases place with
  | some | none => exact .bind (.edit _) fun _ => .pure o

theorem head_grows (records : RecordTable) (place : Option BlockId) (span : Span) (h : OpHead)
    (count : Nat) : Grows (head records place span h count) := by
  refine .bind (.mapM (useValue_grows records)) fun vs => ?_
  exact .bind (useBlocks_grows h.successors) (create_grows place span h count vs)

/- The steps before the creation of an operation do not count. -/
theorem HeadDone.after (hBefore :
      Goes rule all done reserved top around doneLabels place id d d₁)
    (hClosed : d.Leads id (fun _ => False) (fun _ => False) d₁)
    (hDone : HeadDone rule all done reserved top around doneLabels place h count d₁ d₂ o op)
    (hBounded : d.module.Bounded) :
    HeadDone rule all done reserved top around doneLabels place h count d d₂ o op where
  __ := hDone
  goes := hBefore.trans hDone.goes hBounded
  fresh := ⟨Nat.le_trans hBefore.leads.frame.handles.op hDone.fresh.1, hDone.fresh.2⟩
  regions := by
    refine ⟨hDone.regions.1, hDone.regions.2.1, ?_⟩
    intro r hMember
    have hBounds := hDone.regions.2.2 r hMember
    exact ⟨Nat.le_trans hBefore.leads.frame.handles.region hBounds.1, hBounds.2⟩
  placed := by
    intro b os hPlace hOps
    exact hDone.placed b os hPlace (hClosed.frame.blockOps b os hOps (fun hOpen => hOpen))

theorem head_steps (records : RecordTable) (span : Span) (count : Nat)
    (hGood : d.Good rule all done reserved top) (hAt : d.At rule around doneLabels place)
    (hDone : ∀ x ∈ done, x ∈ all) (hOnce : rule → (all.map Prod.fst).Nodup)
    (hUses : rule → ∀ x ∈ h.operands, x.entry ∈ all)
    (hLabels : rule → ∀ s ∈ h.successors, s.text ∈ around) :
    Steps rule (head records place span h count) d fun o d' =>
      ∃ op, HeadDone rule all done reserved top around doneLabels place h count d d' o op ∧
        ∀ s ∈ h.successors, d'.HasLabel s.text := by
  refine .bind (Steps.mono (useValues_steps records hGood hDone hOnce hUses) ?_) ?_
  · rintro vs d₁ ⟨hKeeps, hMeans⟩
    have hGoes₁ := hKeeps.goes hAt hGood.bounded
    refine .bind (Steps.mono (useBlocks_steps hGoes₁.good
      hGoes₁.place hLabels) ?_) (create_grows place span h count vs)
    rintro bs d₂ ⟨hGoes₂, hLeads₂, hSuccessors, hNamed⟩
    have hGoes := hGoes₁.trans hGoes₂ hGood.bounded
    have hClosed := hKeeps.leads.trans_closed hLeads₂ hGood.bounded
    have hMeans₂ := hMeans.imp fun v x hOld => hOld.leads hLeads₂
    rcases create_done span count hGoes₂.good hGoes₂.place hMeans₂ hSuccessors with
      ⟨m₁, m₂, m₃, hNew, hSpan, hRun, hHead⟩
    refine .edit_bind hNew (.edit_bind hSpan ?_)
    cases place with
    | some | none =>
      refine .edit_bind hRun (.pure ⟨headOp d₂.module h span count vs bs, ?_, hNamed⟩)
      exact hHead.after hGoes hClosed hGood.bounded
  · intro vs
    exact .bind (useBlocks_grows h.successors) (create_grows place span h count vs)

end Assemble

end FortranIR
