import FortranIR.Proofs.Assembly.Heads

/-
  This file states what the definition of a block and the
  processing of a region do to a draft: the blocks of a region
  are placed in the order of their definitions, with the
  arguments of their headers, and in the end every branch of the
  region names one of them.

  Main declarations:
    * `Assemble.placeBlock_frame`
    * `Assemble.defineBlock_steps`
-/

namespace FortranIR

open TypedName

variable {head : BlockHead} {labels : BlockLabels}
variable {b : BlockId} {m : Module}

namespace Assemble

variable {top : List OpId}
variable {d : Draft}

----
-- Placed blocks
----

theorem lookup_append_of_mem {κ β : Type} [BEq κ] [LawfulBEq κ] {entries more : List (κ × β)}
    {k : κ} {v : β} (hFound : entries.lookup k = some v) : (entries ++ more).lookup k = some v := by
  rw [List.lookup_append, hFound]
  rfl

/- A module in which a block has got a place in its region. -/
theorem placeBlock_frame (hAssembled : m.Assembled) (hIn : m.IsIn r b)
    (hBlocks : m.regionBlocks r = .ok bs) (hAbsent : b ∉ bs) : ∃ m',
      Module.placeBlock b m = .ok () m' ∧ m'.ops = m.ops ∧ m'.values = m.values ∧
      m'.blocks = m.blocks ∧ m'.top = m.top ∧ m'.Assembled ∧
      m.Frame id (fun c => c = r) (fun _ => False) m' ∧ m'.regionBlocks r = .ok (bs ++ [b]) ∧
      m'.blockOps b = .ok [] := by
  rcases hIn with ⟨info, hInfo, hSame⟩
  subst hSame
  rcases Module.regionBlocks_eq_ok_iff.mp hBlocks with ⟨region, hRegion, hLayout⟩
  rw [← hLayout] at hAbsent
  have hRun := Module.placeBlock_eq_ok_iff.mpr ⟨info, region, hInfo, hRegion, hAbsent, rfl⟩
  let f := fun r : RegionInfo => { r with layout := r.layout ++ [(b, [])] }
  let m' : Module := { m with regions := m.regions.modify info.region.index f }
  have hRegions : ∀ k : Nat, m'.regions[k]? = m.regions[k]?.map fun r =>
          if info.region.index = k then f r else r :=
    fun _ => getElem?_modify_map
  have hBlockOps : ∀ c os, m.blockOps c = .ok os → m'.blockOps c = .ok os := by
    intro c os hOld
    rcases Module.blockOps_eq_ok_iff.mp hOld with ⟨info', region', hInfo', hRegion', hFound'⟩
    refine Module.blockOps_eq_ok_iff.mpr ⟨info', _, hInfo', by rw [hRegions, hRegion']; rfl, ?_⟩
    split
    · exact lookup_append_of_mem hFound'
    · exact hFound'
  refine ⟨m', hRun, rfl, rfl, rfl, rfl,
    hAssembled.change (c := .placeBlock b) rfl nofun hRun, ?_, ?_, ?_⟩
  · refine { (.refl m : m.Frame id (fun c => c = info.region) (fun _ => False) m) with
        blockOps := fun c os hOld _ => hBlockOps c os hOld
        regionBlocks := ?_
        placed := fun c os hOld => ⟨os, hBlockOps c os hOld⟩ }
    intro c cs hOld hOther
    rcases Module.regionBlocks_eq_ok_iff.mp hOld with ⟨other, hEntry, hKept⟩
    refine Module.regionBlocks_eq_ok_iff.mpr ⟨other, ?_, hKept⟩
    rw [hRegions, hEntry, Option.map_some, if_neg]
    intro hIndex
    exact hOther (RegionId.ext hIndex.symm)
  · refine Module.regionBlocks_eq_ok_iff.mpr ⟨f region, ?_, ?_⟩
    · rw [hRegions, hRegion, Option.map_some, if_pos rfl]
    · rw [RegionInfo.blocks, List.map_append]
      exact congrArg (· ++ [b]) hLayout
  · refine Module.blockOps_eq_ok_iff.mpr ⟨info, f region, hInfo, ?_, ?_⟩
    · rw [hRegions, hRegion, Option.map_some, if_pos rfl]
    · change (region.layout ++ [(b, [])]).lookup b = some []
      rw [List.lookup_append, lookup_eq_none_iff_notMem.mpr hAbsent]
      simp

----
-- Arguments
----

/- A block that was named before gets the arguments of its header. -/
theorem addBlockArgs_run (args : List TypedName)
    (hAssembled : d.module.Assembled) (hInfo : d.module.blocks[b.index]? = some info) :
    ∃ m, (args.forM fun arg => do
        let _ ← edit (Module.addBlockArg b arg.type)) d = .ok () { d with module := m } ∧
      d.module.Adds (· = b) m ∧ m.DefinesAll (fun i => .arg b (info.args.length + i))
        (Module.valueIds d.module.handles.value args.length) (args.map type) ∧
      ∀ k : Nat, m.blocks[k]? = if b.index = k then
          some { info with args := info.args ++ Module.valueIds d.module.handles.value args.length }
        else d.module.blocks[k]? := by
  induction args generalizing d info with
  | nil =>
    refine ⟨_, rfl, .refl hAssembled, ⟨rfl, by simp [Module.valueIds]⟩, fun k => ?_⟩
    split
    · rename_i hSame
      rw [← hSame, hInfo]
      simp [Module.valueIds]
    · rfl
  | cons arg args ih =>
    rcases hAssembled.addBlockArg arg.type hInfo with
      ⟨next, hFirst, hAdds, hCount, hValue, hBlocks⟩
    rcases ih (d := { d with module := next }) hAdds.assembled ((hBlocks _).trans (if_pos rfl)) with
      ⟨m, hRun, hRest, hDefined, hBlocks'⟩
    have hValues : Module.valueIds d.module.handles.value (args.length + 1) =
        ⟨d.module.handles.value⟩ :: Module.valueIds next.handles.value args.length := by
      rw [hCount, Module.valueIds, List.range'_succ]
      rfl
    refine ⟨m, bind_of_ok (bind_of_ok (Steps.edit_run hFirst) rfl) hRun, hAdds.trans hRest,
      ?_, fun k => ?_⟩
    · rw [List.length_cons, hValues]
      refine ⟨congrArg (· + 1) hDefined.1, fun i v t hAt hType => ?_⟩
      cases i with
      | zero =>
        cases hAt
        cases hType
        exact ⟨[], hRest.values _ _ hValue⟩
      | succ i =>
        rcases hDefined.2 i v t hAt hType with ⟨users, hEntry⟩
        exact ⟨users, by simp [hEntry, Nat.add_assoc, Nat.add_comm 1]⟩
    · rw [hBlocks' k, List.length_cons, hValues]
      split
      · rw [List.append_assoc]
        rfl
      · rename_i hOther
        rw [hBlocks, if_neg hOther]

----
-- Definitions of blocks
----

/- A block whose label is not defined has no place. -/
theorem not_placed (hSound : labels.Sound rule around doneLabels m)
    (hFound : labels.blocks.lookup n = some label) (hOpen : label.defined = false)
    (hBlocks : m.regionBlocks labels.region = .ok bs) : label.block ∉ bs := by
  intro hMember
  rcases hSound.region with ⟨bs', hBlocks', hNames⟩
  cases hBlocks.symm.trans hBlocks'
  rcases forall₂_mem_left hNames hMember with ⟨n', hDone, label', hFound', hSame⟩
  have hName := hSound.distinct _ _ _ _ hFound' hFound hSame
  subst hName
  have hDefined := (hSound.defined _ _ hFound).mpr hDone
  rw [hOpen] at hDefined
  cases hDefined

/- A placed block is among the blocks of its region. -/
theorem mem_of_blockOps (hOps : m.blockOps b = .ok os) (hIn : m.IsIn r b)
    (hBlocks : m.regionBlocks r = .ok bs) : b ∈ bs := by
  rcases Module.blockOps_eq_ok_iff.mp hOps with ⟨info, region, hInfo, hRegion, hFound⟩
  rcases hIn with ⟨info', hInfo', rfl⟩
  cases hInfo.symm.trans hInfo'
  rcases Module.regionBlocks_eq_ok_iff.mp hBlocks with ⟨region', hRegion', rfl⟩
  cases hRegion.symm.trans hRegion'
  exact List.mem_map_of_mem (mem_of_lookup hFound)

/- A block with the arguments of its header, before its place. -/
structure Ready (rule : Prop) (all done : List (String × Ty)) (reserved : List ValueId)
    (top : List OpId) (labels : BlockLabels) (head : BlockHead) (d d' : Draft) (b : BlockId)
    (vs : List ValueId) : Prop where
  good : d'.Good rule all done (vs ++ reserved) top
  leads : d.Leads id (fun r => r = labels.region) (fun _ => False) d'
  named : ∃ label : BlockLabel, label.block = b ∧ label.defined = true ∧ d'.labels = some
        { labels with blocks := (head.name, label) :: labels.blocks }
  info : ∃ users, d'.module.blocks[b.index]? =
        some { region := labels.region, args := vs, users := users }
  args : d'.module.DefinesAll (.arg b) vs (head.args.map TypedName.type)
  blocks : d'.module.regionBlocks labels.region = d.module.regionBlocks labels.region
  own : ∀ n label, labels.blocks.lookup n = some label → label.block = b → n = head.name
  old : ∀ label, labels.blocks.lookup head.name = some label → label.block = b
  others : KeepsBlocks d.module d'.module b

theorem blockOfHead_grows (labels : BlockLabels) (head : BlockHead) :
    Grows (blockOfHead labels head) := by
  unfold blockOfHead
  cases labels.blocks.lookup head.name with
  | none => exact .bind (.edit _) fun b => .bind (addLabel_grows _ _ _) fun _ => .pure _
  | some label =>
    dsimp only
    split
    · exact .bind (.error _ _) fun _ => .pure none
    · exact .bind (addLabel_grows _ _ _) fun _ =>
        .bind (.forM fun arg => .bind (.edit _) fun _ => .pure ()) fun _ => .pure _

section

variable (hGood : d.Good rule all done reserved top)
variable (hSound : labels.Sound rule around doneLabels d.module)
include hGood hSound

/- A block that is defined before it is named. -/
theorem ready_of_new (hNew : labels.blocks.lookup head.name = none) : ∃ m vs,
      Module.newDetachedBlock labels.region (head.args.map type) d.module =
        .ok ⟨d.module.handles.block⟩ m ∧ Ready rule all done reserved top labels head d
        { d with
          module := m
          labels := some
            { labels with blocks :=
                (head.name, ⟨⟨d.module.handles.block⟩, head.span, true⟩) :: labels.blocks } }
        ⟨d.module.handles.block⟩ vs := by
  rcases hSound.region with ⟨bs, hBlocks, -⟩
  rcases newDetachedBlock_steps (head.args.map type) hGood hBlocks with
    ⟨m, hRun, hNext, hInfo, hArgs⟩
  rcases hNext (some
    { labels with blocks :=
        (head.name, ⟨⟨d.module.handles.block⟩, head.span, true⟩)
          :: labels.blocks }) with ⟨hGood', hLeads⟩
  refine ⟨m, Module.valueIds d.module.handles.value (head.args.map type).length, hRun, ?_⟩
  refine
    { good := hGood'
      leads := ?_
      named := ⟨_, rfl, rfl, rfl⟩
      info := ⟨[], hInfo⟩
      args := hArgs
      blocks := ?_
      own := ?_
      old := ?_
      others := ?_ }
  · exact (Draft.Leads.refl d).trans_closed hLeads hGood.bounded
  · rw [hBlocks]
    exact hLeads.frame.regionBlocks _ bs hBlocks (fun hOpen => hOpen)
  · intro n label hFound hSame
    exact absurd hSame (labels_fresh hGood hSound n label hFound)
  · intro label hFound
    rw [hNew] at hFound
    cases hFound
  · intro c info _ hOld
    rcases hLeads.frame.blocks c info hOld with ⟨info', hInfo', hRegion, hArgs'⟩
    exact ⟨info', hInfo', hRegion, hArgs' fun hOpen => hOpen.elim⟩

/- A block that a branch has named before it is defined. -/
theorem ready_of_named (hFound : labels.blocks.lookup head.name = some label)
    (hOpen : label.defined = false) : ∃ d' vs, (head.args.forM fun arg => do
        let _ ← edit (Module.addBlockArg label.block arg.type))
        { d with
          labels := some
            { labels with blocks := (head.name, { label with defined := true })
                :: labels.blocks } } = .ok () d' ∧ d'.log = d.log ∧
      Ready rule all done reserved top labels head d d' label.block vs := by
  rcases hSound.blocks _ _ hFound with ⟨info, hInfo, hRegion, hArgs⟩
  have hNoArgs := hArgs hOpen
  rcases hSound.region with ⟨bs, hBlocks, -⟩
  have hNotPlaced := not_placed hSound hFound hOpen hBlocks
  let labels' := { labels with
      blocks := (head.name, { label with defined := true }) :: labels.blocks : BlockLabels }
  rcases addBlockArgs_run (d := { d with labels := some labels' }) head.args hGood.assembled hInfo
    with ⟨m, hRun, hAdds, hDefined, hEntries⟩
  simp only [hNoArgs, List.length_nil, Nat.zero_add, List.nil_append] at hDefined hEntries
  have hFrame : d.module.Frame id (fun r => r = labels.region) (fun _ => False) m := by
    refine hAdds.frame fun c old hOld hSame => ?_
    subst hSame
    cases hInfo.symm.trans hOld
    exact ⟨hRegion, fun os hOps => hNotPlaced (mem_of_blockOps hOps ⟨info, hInfo, hRegion⟩ hBlocks)⟩
  refine ⟨_, Module.valueIds d.module.handles.value head.args.length, hRun, rfl, ?_⟩
  refine
    { good := (hGood.added hAdds _).reserve hDefined (fun _ => by simp) hGood.below
      leads := ⟨hFrame, fun _ _ hKnown => hKnown⟩
      named := ⟨{ label with defined := true }, rfl, rfl, rfl⟩
      info := ⟨info.users, ?_⟩
      args := hDefined
      blocks := ?_
      own := ?_
      old := ?_
      others := ?_ }
  · rw [hEntries, if_pos rfl, hRegion]
  · rw [Module.regionBlocks, Module.region, hAdds.regions]
    rfl
  · intro n label' hFound' hSame
    exact hSound.distinct _ _ _ _ hFound' hFound hSame
  · intro label' hFound'
    rw [hFound, Option.some.injEq] at hFound'
    rw [hFound']
  · intro c old hDiffers hOld
    refine ⟨old, ?_, rfl, rfl⟩
    rw [hEntries, if_neg fun hIndex => hDiffers (BlockId.ext hIndex).symm]
    exact hOld

theorem blockOfHead_steps (hName : rule → head.name ∉ doneLabels) :
    Steps rule (blockOfHead labels head) d fun found d' =>
      ∃ b vs, found = some b ∧ Ready rule all done reserved top labels head d d' b vs ∧
        head.name ∉ doneLabels ∧ ∀ bs, d.module.regionBlocks labels.region = .ok bs → b ∉ bs := by
  unfold blockOfHead
  cases hLookup : labels.blocks.lookup head.name with
  | none =>
    rcases ready_of_new hGood hSound hLookup with ⟨m, vs, hRun, hReady⟩
    refine .edit_bind hRun (.modify_bind rfl (.pure ?_))
    refine ⟨_, vs, rfl, hReady, not_done hSound hLookup, fun bs hBlocks hMember => ?_⟩
    exact Nat.lt_irrefl _ ((hGood.bounded.of_regionBlocks hBlocks).2 _ hMember)
  | some label =>
    dsimp only
    split
    · rename_i hDefined
      refine .bind_error (fun hRule => ?_) fun _ => .pure none
      exact hName hRule ((hSound.defined _ _ hLookup).mp hDefined)
    · rename_i hUndefined
      have hOpen := Bool.eq_false_iff.mpr hUndefined
      rcases ready_of_named hGood hSound hLookup hOpen with ⟨d', vs, hRun, hLog, hReady⟩
      refine .modify_bind rfl (.bind_ok hRun hLog (.pure ?_))
      refine ⟨_, vs, rfl, hReady, ?_, ?_⟩
      · intro hMember
        exact hUndefined ((hSound.defined _ _ hLookup).mpr hMember)
      · intro bs hBlocks
        exact not_placed hSound hLookup hOpen hBlocks

end

/- What the definition of a block does to a draft. -/
structure BlockDone (rule : Prop) (all done : List (String × Ty)) (reserved : List ValueId)
    (top : List OpId) (around doneLabels : List String) (labels : BlockLabels) (head : BlockHead)
    (σ : ValueId → ValueId) (d d' : Draft) (b : BlockId) : Prop where
  good : d'.Good rule all (done ++ head.args.map TypedName.entry) reserved top
  leads : d.Leads σ (fun r => r = labels.region) (fun _ => False) d'
  named : ∃ labels', d'.labels = some labels' ∧ labels.Before labels' ∧
      labels'.Sound rule around (doneLabels ++ [head.name]) d'.module
  blocks : ∀ bs, d.module.regionBlocks labels.region = .ok bs →
      d'.module.regionBlocks labels.region = .ok (bs ++ [b])
  ops : d'.module.blockOps b = .ok []
  isIn : d'.module.IsIn labels.region b
  args : d'.module.DefinesArgs (known? d') b (head.args.map TypedName.entry)

theorem entries_of_args (args : List TypedName) : ((args.map fun a => (⟨a.span, a.text⟩ : Name)).map
      Name.text).zip (args.map TypedName.type) = args.map TypedName.entry := by
  rw [List.map_map, List.zip_map']
  rfl

theorem defineBlock_grows (records : RecordTable) (head : BlockHead) :
    Grows (defineBlock records head) := by
  refine .get_bind fun d => ?_
  cases d.labels with
  | none => exact .pure none
  | some labels =>
    refine .bind (blockOfHead_grows labels head) fun found => ?_
    cases found with
    | none => exact .pure none
    | some b =>
      exact .bind (.edit _) fun _ => .bind (.edit _) fun _ =>
        .bind (.forM fun x => define_grows records x.1 x.2) fun _ => .pure _

/- A block with its arguments gets its place. -/
theorem Ready.place (hReady :
      Ready rule all done reserved top labels head d d₁ b vs)
    (hBounded : d.module.Bounded) (hSound : labels.Sound rule around doneLabels d.module)
    (hBlocks : d.module.regionBlocks labels.region = .ok bs) (hAbsent : b ∉ bs)
    (hNew : head.name ∉ doneLabels) (hExpected : rule → head.name ∈ around) :
    ∃ m, Module.placeBlock b d₁.module = .ok () m ∧
      { d₁ with module := m : Draft }.Good rule all done (vs ++ reserved) top ∧
      d.Leads id (fun r => r = labels.region) (fun _ => False) { d₁ with module := m } ∧
      (∃ labels', d₁.labels = some labels' ∧ labels.Before labels' ∧
        labels'.region = labels.region ∧ labels'.Sound rule around (doneLabels ++ [head.name]) m) ∧
      m.regionBlocks labels.region = .ok (bs ++ [b]) ∧ m.blockOps b = .ok [] ∧
      (∃ users, m.blocks[b.index]? = some { region := labels.region, args := vs, users := users }) ∧
      m.DefinesAll (.arg b) vs (head.args.map type) := by
  rcases hReady.info with ⟨users, hInfo⟩
  rcases hReady.named with ⟨label, rfl, hDefined, hLabels⟩
  have hIn : d₁.module.IsIn labels.region label.block := ⟨_, hInfo, rfl⟩
  rcases placeBlock_frame hReady.good.assembled hIn (hReady.blocks.trans hBlocks) hAbsent with
    ⟨m, hRun, hOps, hValues, hSameBlocks, hTop, hAssembled, hFrame, hBlocks', hEmpty⟩
  refine ⟨m, hRun, ?_, ?_, ⟨_, hLabels, ⟨rfl, ?_⟩, rfl, ?_⟩,
    hBlocks', hEmpty, ⟨users, hSameBlocks ▸ hInfo⟩, ?_⟩
  · exact hReady.good.quiet hAssembled (hTop.trans hReady.good.top)
      (fun k info hOld => hValues ▸ hOld) hOps _
  · refine ⟨?_, hReady.leads.names⟩
    exact hReady.leads.frame.trans hFrame (fun _ hOpen => .inl hOpen)
      (fun _ _ hOpen _ => hOpen.elim) hBounded
  · intro n label' hFound
    by_cases hName : n = head.name
    · subst hName
      exact ⟨label, List.lookup_cons_self, (hReady.old label' hFound).symm⟩
    · exact ⟨label', (lookup_cons_of_ne hName).trans hFound, rfl⟩
  · have hOthers : KeepsBlocks d.module m label.block := by
      rw [KeepsBlocks, hSameBlocks]
      exact hReady.others
    simpa [hDefined] using sound_added hSound hBlocks (by simpa [hDefined] using hBlocks')
      (hSameBlocks ▸ hInfo) rfl (by simp [hDefined]) hReady.own hReady.old hOthers hNew hExpected
  · exact hReady.args.frame (fun _ => by simp) hFrame

theorem defineBlock_steps (records : RecordTable)
    (hGood : d.Good rule all done reserved top) (hLabels : d.labels = some labels)
    (hSound : labels.Sound rule around doneLabels d.module) (hName : rule → head.name ∉ doneLabels)
    (hExpected : head.name ∈ around) (hAll : all = done ++ head.args.map TypedName.entry ++ todo)
    (hOnce : rule → (all.map Prod.fst).Nodup) :
    Steps rule (defineBlock records head) d fun found d' =>
      ∃ b σ, found = some b ∧ BlockDone rule all done reserved top around doneLabels
          labels head σ d d' b := by
  refine .get_bind ?_
  simp only [hLabels]
  refine .bind (Steps.mono (blockOfHead_steps hGood hSound hName) ?_) ?_
  · rintro found d₁ ⟨b, vs, rfl, hReady, hNew, hAbsent⟩
    rcases hSound.region with ⟨bs, hBlocks, -⟩
    rcases hReady.place hGood.bounded hSound hBlocks
      (hAbsent bs hBlocks) hNew (fun _ => hExpected) with ⟨m, hRun, hGood₂, hLeads₂,
        ⟨labels', hLabels', hBefore, _, hSound'⟩, hBlocks₂, hEmpty₂, ⟨users, hInfo₂⟩, hArgs₂⟩
    refine .edit_bind hRun (.read_bind (Module.block_eq_ok_iff.mpr hInfo₂) ?_)
    refine .bind (Steps.mono (defineAll_steps records hGood₂
      hArgs₂.typeOf (by rw [entries_of_args, hAll]) hOnce) ?_) fun _ => .pure _
    rintro - d₃ ⟨σ, hKeeps, hNames⟩
    rw [entries_of_args] at hKeeps hNames
    have hFrame := hKeeps.leads.frame
    refine .pure ⟨b, σ, rfl, ?_⟩
    refine
      { good := hKeeps.good
        leads := hLeads₂.trans_closed hKeeps.leads hGood.bounded
        named := ⟨labels', hKeeps.labels.trans hLabels', hBefore,
          hSound'.frame hFrame fun hOpen => hOpen⟩
        blocks := ?_
        ops := hFrame.blockOps b [] hEmpty₂ fun hOpen => hOpen
        isIn := (show m.IsIn _ b from ⟨_, hInfo₂, rfl⟩).frame hFrame
        args := ?_ }
    · intro bs' hBlocks'
      rw [hBlocks, Except.ok.injEq] at hBlocks'
      rw [← hBlocks']
      exact hFrame.regionBlocks _ _ hBlocks₂ fun hOpen => hOpen
    · rcases hFrame.blocks b _ hInfo₂ with ⟨info, hInfo, -, hSame⟩
      have hLength : vs.length = head.args.length := by rw [hArgs₂.1, List.length_map]
      refine ⟨info, hInfo, ?_, ?_⟩
      · rw [hSame fun hOpen => hOpen.elim, ← hNames, List.length_map, ← hLength, List.take_length]
      · rw [hSame fun hOpen => hOpen.elim, List.map_map]
        exact hArgs₂.frame (fun _ => by simp) hFrame
  · intro found
    cases found with
    | none => exact .pure none
    | some b =>
      exact .bind (.edit _) fun _ => .bind (.edit _) fun _ =>
        .bind (.forM fun x => define_grows records x.1 x.2) fun _ => .pure _

end Assemble

end FortranIR
