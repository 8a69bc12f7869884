import FortranIR.Proofs.Assembly.Regions
import FortranIR.Proofs.Fresh

/-
  This file states what the assembly of a whole text does to a
  draft. Each operation, region and block of the text is in the
  module afterwards, as the code of the text says.

  The three layers of a text are assembled by one induction. For
  each layer a structure says what holds afterwards.

  Main declarations:
    * `Assemble.OpsDone`
    * `Assemble.inRegion_steps`
-/

namespace FortranIR

variable {inner : Text .regions} {head : BlockHead} {d₁ d₃ d₂ : Draft} {around : List String}
variable {rule : Prop} {σ₃ σ₁ σ₂ : ValueId → ValueId} {α : Type} {labels : BlockLabels}
variable {r : RegionId} {m : Module} {rest : Text .ops} {h : Span × OpHead}
variable {b : BlockId} {count : Nat} {step : Assemble Unit}

----
-- The end of a region
----

/- Every block that has been named has been defined. -/
def BlockLabels.Complete (labels : BlockLabels) : Prop := ∀ n label,
    labels.blocks.lookup n = some label → label.defined = true

/- In the end, a name stands for the place of its block. -/
theorem BlockLabels.Sound.isAt (hSound : labels.Sound rule around around m)
    (hComplete : labels.Complete) (hBlocks : m.regionBlocks labels.region = .ok bs)
    (hNames : labels.Names around b i) : Placed.IsAt bs b i := by
  rcases hNames with ⟨n, label, hFound, rfl, rfl⟩
  have hDone : n ∈ around := (hSound.defined n label hFound).mp (hComplete n label hFound)
  have hBound := List.idxOf_lt_length_of_mem hDone
  rcases hSound.region with ⟨bs', hBlocks', hPlaces⟩
  cases hBlocks.symm.trans hBlocks'
  rcases List.forall₂_iff_get.mp hPlaces with ⟨hLength, hEach⟩
  rw [← hLength] at hBound
  rcases hEach _ hBound (hLength ▸ hBound) with ⟨label', hFound', hSame⟩
  rw [List.get_eq_getElem, List.getElem_idxOf, hFound, Option.some.injEq] at hFound'
  unfold Placed.IsAt
  rw [List.getElem?_eq_getElem hBound, hFound', hSame, List.get_eq_getElem]

/- The blocks of a region are distinct, as their names are. -/
theorem BlockLabels.Sound.blocks_nodup
    (hSound : labels.Sound rule around done m) (hBlocks : m.regionBlocks labels.region = .ok bs) :
    bs.Nodup := by
  rcases hSound.region with ⟨bs', hBlocks', hPlaces⟩
  cases hBlocks.symm.trans hBlocks'
  have hNames := hSound.nodup
  have hDistinct := hSound.distinct
  clear hBlocks hBlocks' hSound
  induction hPlaces with
  | nil => exact List.nodup_nil
  | cons hFirst hRest ih =>
    rw [List.nodup_cons] at hNames ⊢
    refine ⟨?_, ih hNames.2⟩
    intro hMember
    rcases hFirst with ⟨label, hFound, hSame⟩
    rcases forall₂_mem_left hRest hMember with ⟨n, hLater, label', hFound', hSame'⟩
    have hName := hDistinct _ _ _ _ hFound hFound' (hSame.trans hSame'.symm)
    exact hNames.1 (hName ▸ hLater)

namespace Assemble

variable {all done : List (String × Ty)} {reserved : List ValueId} {top : List OpId}
variable {doneLabels : List String} {d : Draft}

theorem mem_sortedByName : e ∈ sortedByName entries ↔ e ∈ entries := by
  unfold sortedByName
  rw [List.mem_mergeSort]

theorem mem_undefinedLabels :
    (n, label) ∈ undefinedLabels labels ↔ labels.blocks.lookup n = some label ∧
        label.defined = false := by
  unfold undefinedLabels
  simp only [mem_sortedByName, List.mem_filter,
    List.mem_filterMap, List.mem_eraseDups, Option.map_eq_some_iff,
    Prod.mk.injEq, Bool.not_eq_true']
  constructor
  · rintro ⟨⟨n', -, label', hFound, rfl, rfl⟩, hUndefined⟩
    exact ⟨hFound, hUndefined⟩
  · rintro ⟨hFound, hUndefined⟩
    refine ⟨⟨n, ?_, label, hFound, rfl, rfl⟩, hUndefined⟩
    exact List.mem_map_of_mem (mem_of_lookup hFound)

theorem inRegion_grows (r : RegionId) (hStep : Grows step) : Grows (inRegion r step) := by
  refine .get_bind fun d => .bind (.modify fun _ => rfl) fun _ => ?_
  refine .bind hStep fun _ => .get_bind fun d' => ?_
  refine .bind (.modify fun _ => rfl) fun _ => ?_
  exact .forM fun x => .error x.2.span _

/-
  A region ends well if all its blocks have been defined; if one
  has not, the rule does not hold, since it names a block of the
  region by its label.
-/
theorem inRegion_steps (around : List String) {holds : Draft → Prop} (hStep :
      Steps rule step { d with labels := some { region := r } } fun _ d' => ∃ labels,
          d'.labels = some labels ∧ labels.Sound rule around around d'.module ∧
          (labels.Complete → holds { d' with labels := d.labels })) :
    Steps rule (inRegion r step) d fun _ d' => holds d' := by
  refine .get_bind (.modify_bind rfl ?_)
  refine .bind (Steps.mono hStep ?_) ?_
  · rintro - d' ⟨labels, hLabels, hSound, hHolds⟩
    refine .get_bind (.modify_bind rfl ?_)
    simp only [hLabels, Option.map_some, Option.getD_some]
    cases hUndefined : undefinedLabels labels with
    | nil =>
      refine .pure (hHolds ?_)
      intro n label hFound
      by_contra hOpen
      have hMember := mem_undefinedLabels.mpr ⟨hFound, Bool.eq_false_iff.mpr hOpen⟩
      rw [hUndefined] at hMember
      cases hMember
    | cons entry entries =>
      rcases entry with ⟨n, label⟩
      have hMember : (n, label) ∈ undefinedLabels labels := by
        rw [hUndefined]
        exact .head _
      rcases mem_undefinedLabels.mp hMember with ⟨hFound, hOpen⟩
      refine .bind_error ?_ fun _ => .forM fun x => .error x.2.span _
      intro hRule
      have hDefined := (hSound.defined n label hFound).mpr (hSound.expected hRule n label hFound)
      rw [hOpen] at hDefined
      cases hDefined
  · intro _
    refine .get_bind fun d' => .bind (.modify fun _ => rfl) ?_
    exact fun _ => .forM fun x => .error x.2.span _

theorem forest_grows (records : RecordTable) (t : Text l) (s : Spot l) :
    Grows (forest records t s) := by
  induction t with
  | nil =>
    exact .pure ()
  | op h inner rest ihInner ihRest =>
    cases s with
    | ops place =>
      refine .bind (head_grows records place h.1 h.2 _) ?_
      intro o
      refine .bind (.edit _) fun op => .bind (ihInner _) ?_
      intro _
      refine .bind (.edit _) fun op => .bind (.forM ?_) ?_
      · exact fun x => define_grows records x.1 x.2
      · exact fun _ => ihRest _
  | region r inner rest ihInner ihRest =>
    cases s with
    | regions ids =>
      cases ids with
      | nil =>
        exact .pure ()
      | cons id ids =>
        exact .bind (inRegion_grows id (ihInner .blocks)) fun _ => ihRest _
  | block h inner rest ihInner ihRest =>
    cases s with
    | blocks =>
      refine .bind (defineBlock_grows records h) fun found => ?_
      cases found with
      | none => exact ihRest .blocks
      | some b => exact .bind (ihInner _) fun _ => ihRest .blocks

----
-- What holds after each layer
----

variable (rule all done reserved top)

/- What the assembly of operations at a place does. -/
structure OpsDone (around doneLabels : List String) (place : Option BlockId) (t : Text .ops)
    (σ : ValueId → ValueId) (d d' : Draft) (c : Placed String .ops) : Prop where
  goes : Goes rule all (done ++ t.defs) reserved
      (topAfter place top c.tops) around doneLabels place σ d d'
  shows : c.Shows d'.module (known? d') (d'.Successor around)
  code : c.code = t.code around
  fresh : c.Fresh d.module.handles d'.module.handles []
  placed : ∀ b os, place = some b → d.module.blockOps b = .ok os →
      d'.module.blockOps b = .ok (os ++ c.tops)
  labelled : t.Labelled d'.HasLabel

/- What the assembly of the regions of an operation does. -/
structure RegionsDone (ids : List RegionId) (t : Text .regions) (σ : ValueId → ValueId)
    (d d' : Draft) (c : Placed String .regions) : Prop where
  good : d'.Good rule all (done ++ t.defs) reserved top
  leads : d.Leads σ (fun r => r ∈ ids) (fun _ => False) d'
  labels : d'.labels = d.labels
  roots : c.regionRoots = ids
  shows : ∀ succ, c.Shows d'.module (known? d') succ
  code : ∀ around, c.code = t.code around
  fresh : c.Fresh d.module.handles d'.module.handles ids
  labelled : ∀ known, t.Labelled known

/- What the assembly of the blocks of a region does. -/
structure BlocksDone (around doneLabels : List String) (labels : BlockLabels) (t : Text .blocks)
    (σ : ValueId → ValueId) (d d' : Draft) (c : Placed String .blocks) : Prop where
  good : d'.Good rule all (done ++ t.defs) reserved top
  leads : d.Leads σ (fun r => r = labels.region) (fun _ => False) d'
  named : ∃ labels', d'.labels = some labels' ∧ labels.Before labels' ∧
      labels'.Sound rule around (doneLabels ++ t.labels) d'.module
  blocks : ∀ bs, d.module.regionBlocks labels.region = .ok bs →
      d'.module.regionBlocks labels.region = .ok (bs ++ c.heads)
  isIn : ∀ b ∈ c.heads, d'.module.IsIn labels.region b
  shows : c.Shows d'.module (known? d') (d'.Successor around)
  code : c.code = t.code around
  fresh : c.Fresh d.module.handles d'.module.handles []
  labelled : t.Labelled d'.HasLabel

variable {rule all done reserved top}

theorem map_snd_zip {β : Type} (xs : List α) (ys : List β) :
    (xs.zip ys).map Prod.snd = ys.take xs.length := by
  induction xs generalizing ys with
  | nil => rfl
  | cons x xs ih =>
    cases ys with
    | nil => rfl
    | cons y ys => simp [ih]

theorem topAfter_cons (place : Option BlockId) (top os : List OpId) (o : OpId) :
    topAfter place (topAfter place top [o]) os = topAfter place top (o :: os) := by
  cases place with
  | none => simp [topAfter]
  | some b => rfl

/- The block of a place is older than the regions created later. -/
theorem not_isIn_new
    (hGood : d.Good rule all done reserved top)
    (hAt : d.At rule around doneLabels (some b)) (hFrame : d.module.Frame σ openRegion openBlock m)
    (hNew : d.module.handles.region ≤ r.index) : ¬ m.IsIn r b := by
  rintro ⟨info', hInfo', rfl⟩
  rcases hAt with ⟨labels, os, -, -, hOps⟩
  rcases Module.blockOps_eq_ok_iff.mp hOps with ⟨info, region, hInfo, -, -⟩
  rcases hFrame.blocks b info hInfo with ⟨info'', hInfo'', hSame, -⟩
  cases hInfo'.symm.trans hInfo''
  have hBelow := (hGood.bounded.blocks _ info hInfo).2
  rw [hSame] at hNew
  omega

section Operations

variable {place : Option BlockId} {o : OpId} {op : Operation}
variable {cInner : Placed String .regions}

variable (hGood : d.Good rule all done reserved top) (hAt : d.At rule around doneLabels place)
variable (hHead : HeadDone rule all done reserved top around doneLabels place h.2 count d d₁ o op)
variable (hInner : RegionsDone rule all done (op.results ++ reserved) (topAfter place top [o])
    op.regions inner σ₁ d₁ d₂ cInner)
include hGood hAt hHead hInner

/- The regions of an operation do not touch the place of it. -/
theorem HeadDone.at_regions : d₂.At rule around doneLabels place := by
  refine hHead.goes.place.keep hInner.leads hInner.labels ?_
  intro labels₁ hLabels₁ hMember
  cases place with
  | none =>
    have hNone := hHead.goes.labels.1 hAt.1
    rw [hLabels₁] at hNone
    cases hNone
  | some b =>
    rcases hAt with ⟨labels, os, hLabels, hSound, -⟩
    rcases hHead.goes.labels.2 labels hLabels with ⟨labels', hLabels', hRegion, -⟩
    cases hLabels₁.symm.trans hLabels'
    have hNew := (hHead.regions.2.2 _ hMember).1
    rcases hSound.region with ⟨_, hBlocks, -⟩
    have hOld := (hGood.bounded.of_regionBlocks hBlocks).1
    rw [hRegion] at hNew
    omega

variable (hKeeps : Keeps rule all (done ++ inner.defs ++ h.2.entries) reserved
    (topAfter place top [o]) σ₂ d₂ d₃)
variable (hNames : (op.results.take h.2.entries.length).map some =
    h.2.entries.map fun x => known? d₃ x.1)
include hKeeps hNames

omit hGood hAt in
/- An operation with its regions, when its results have names. -/
theorem HeadDone.shows : Placed.Shows d₃.module (known? d₃) (d₃.Successor around)
      (.op (o, Text.node around h.2) cInner .nil) := by
  have hLeads := hInner.leads.trans_closed hKeeps.leads hHead.goes.good.bounded
  have hLabels : d₁.LabelsBefore d₃ := .of_eq (hKeeps.labels.trans hInner.labels)
  have hTypes : h.2.entries.map Prod.snd ++ h.2.resultTypes.drop h.2.results.length =
          h.2.resultTypes := by
    unfold OpHead.entries
    rw [map_snd_zip, List.length_map, List.take_append_drop]
  rcases hLeads.frame.ops o op hHead.entry with ⟨span, hEntry⟩
  refine ⟨⟨_, hEntry, ?_, ?_, hInner.roots.symm⟩, ?_, trivial⟩
  · exact hHead.uses.frame hLeads.frame hLeads.names (fun _ _ => hLabels.successor) span
  · refine ⟨hNames, ?_⟩
    change d₃.module.DefinesAll _ op.results (h.2.entries.map Prod.snd ++
        h.2.resultTypes.drop h.2.results.length)
    rw [hTypes]
    exact hHead.defined.frame (fun _ => by simp) hLeads.frame
  · exact (hInner.shows (d₂.Successor around)).frame hKeeps.leads.frame hKeeps.leads.names
      (fun _ _ => (Draft.LabelsBefore.of_eq hKeeps.labels).successor)
      (fun _ _ hOpen => hOpen) (fun _ _ hOpen => hOpen)

theorem OpsDone.cons (hLabels : ∀ s ∈ h.2.successors, d₁.HasLabel s.text) (hRest :
      OpsDone rule all (done ++ inner.defs ++ h.2.entries) reserved
        (topAfter place top [o]) around doneLabels place rest σ₃ d₃ d₄ cRest) :
    OpsDone rule all done reserved top around doneLabels place
      (.op h inner rest) (σ₃ ∘ σ₂ ∘ σ₁) d d₄ (.op (o, Text.node around h.2) cInner cRest) := by
  have hRegions := hHead.regions.2.2
  have hLeads₁ := hHead.goes.leads
  have hLeads₂ :=
    hLeads₁.trans hInner.leads (fun r hIn => .inr (hRegions r hIn).1)
      (fun _ _ hOpen _ => hOpen.elim) hGood.bounded
  have hLeads₃ := hLeads₂.trans_closed hKeeps.leads hGood.bounded
  have hLeads₄ :=
    hLeads₃.trans hRest.goes.leads (fun _ hOpen => .inl hOpen)
      (fun _ _ hOpen _ => hOpen) hGood.bounded
  have hBefore : d₁.LabelsBefore d₄ :=
    (Draft.LabelsBefore.of_eq (hKeeps.labels.trans hInner.labels)).trans hRest.goes.labels
  have hHandles₂ := hInner.leads.frame.handles
  have hHandles₃ := hKeeps.leads.frame.handles
  have hHandles₄ := hRest.goes.leads.frame.handles
  -- The block of the place is around the regions, not in them.
  have hOutside : ∀ b ∈ cInner.blockIds, ¬ place = some b := by
    intro b hMember hPlace
    subst hPlace
    rcases (hInner.shows fun _ _ => False).isIn hMember with hOuter | ⟨r, hIn, hHolds⟩
    · rw [Placed.outerBlocks_regions] at hOuter
      cases hOuter
    · have hRanged :=
        hInner.fresh.ranged_given (fun r hIn => ⟨(hRegions r hIn).1, (hRegions r hIn).2.1⟩)
          hLeads₁.frame.handles hHandles₂
      exact not_isIn_new hGood hAt hLeads₂.frame (hRanged.bounds r hIn).1 hHolds
  have hShown :=
    (hHead.shows hInner hKeeps hNames).frame hRest.goes.leads.frame
      hRest.goes.leads.names (fun _ _ => hRest.goes.labels.successor)
      (fun _ _ hOpen => hOpen) (by simpa [Placed.blockIds, Forest.gather] using hOutside)
  refine
    { goes := ⟨?_, hLeads₄, hRest.goes.place, hHead.goes.labels.trans hBefore⟩
      shows := ⟨hShown.1, hShown.2.1, hRest.shows⟩
      code := ?_
      fresh := ?_
      placed := ?_
      labelled := ⟨?_, hInner.labelled _, hRest.labelled⟩ }
  · have hGood₄ := hRest.goes.good
    rw [topAfter_cons] at hGood₄
    simpa [Text.defs, Forest.gather, Placed.tops, Forest.opRoots] using hGood₄
  · have hCode := hRest.code
    have hCodeInner := hInner.code around
    simp_all [Placed.code, Text.code, Forest.map]
  · exact .op hHead.fresh (fun r hIn => ⟨(hRegions r hIn).1, (hRegions r hIn).2.1⟩)
      hInner.fresh (hRest.fresh.widen hHandles₃)
      hLeads₁.frame.handles hHandles₂ (hHandles₃.trans hHandles₄)
  · intro b os hPlace hOps
    have hOps₁ := hHead.placed b os hPlace hOps
    have hOps₂ := hInner.leads.frame.blockOps b _ hOps₁ fun hOpen => hOpen
    have hOps₃ := hKeeps.leads.frame.blockOps b _ hOps₂ fun hOpen => hOpen
    have hOps₄ := hRest.placed b _ hPlace hOps₃
    simpa [Placed.tops, Forest.opRoots] using hOps₄
  · exact fun s hMember => hBefore.hasLabel (hLabels s hMember)

end Operations

section Blocks

variable {inner : Text .ops} {rest : Text .blocks} {labels₂ : BlockLabels}
variable {cInner : Placed String .ops} {cRest : Placed String .blocks}

variable (hSound : labels.Sound rule around doneLabels d.module)
variable (hBlock : BlockDone rule all done reserved top around doneLabels labels head σ₁ d d₁ b)
include hSound hBlock

/- A block has no place before it is defined. -/
theorem BlockDone.no_place : d.module.blockOps b ≠ .ok os := by
  intro hOps
  rcases hSound.region with ⟨bs, hBlocks, -⟩
  rcases hBlock.named with ⟨labels', -, hBefore, hSound'⟩
  have hNodup := hSound'.blocks_nodup (hBefore.1 ▸ hBlock.blocks bs hBlocks)
  rcases Module.blockOps_eq_ok_iff.mp hOps with ⟨info, region, hInfo, -, -⟩
  rcases hBlock.leads.frame.blocks b info hInfo with ⟨info', hInfo', hRegion, -⟩
  rcases hBlock.isIn with ⟨info'', hInfo'', hIn⟩
  cases hInfo'.symm.trans hInfo''
  have hMember := mem_of_blockOps hOps ⟨info, hInfo, hRegion.symm.trans hIn⟩ hBlocks
  rw [List.nodup_append] at hNodup
  exact hNodup.2.2 b hMember b (.head _) rfl

theorem BlocksDone.cons (hGood : d.Good rule all done reserved top) (hInner :
      OpsDone rule all (done ++ head.args.map TypedName.entry)
        reserved top around (doneLabels ++ [head.name]) (some b) inner σ₂ d₁ d₂ cInner)
    (hLabels₂ : d₂.labels = some labels₂) (hBefore₂ : labels.Before labels₂) (hRest :
      BlocksDone rule all (done ++ head.args.map TypedName.entry ++ inner.defs)
        reserved top around (doneLabels ++ [head.name]) labels₂ rest σ₃ d₂ d₃ cRest) :
    BlocksDone rule all done reserved top around doneLabels labels
      (.block head inner rest) (σ₃ ∘ σ₂ ∘ σ₁) d d₃
      (.block (b, head.args.map TypedName.entry) cInner cRest) := by
  have hRegion : labels₂.region = labels.region := hBefore₂.1
  have hLeads₂ :=
    hBlock.leads.trans hInner.goes.leads (fun _ hOpen => hOpen.elim) (fun c os hOpen hOps => by
        rw [Option.some.injEq] at hOpen
        exact hBlock.no_place hSound (hOpen ▸ hOps)) hGood.bounded
  have hLeads₃ :=
    hLeads₂.trans hRest.leads (fun _ hOpen => .inl (hOpen.trans hRegion))
      (fun _ _ hOpen _ => hOpen.elim) hGood.bounded
  have hHandles₁ := hBlock.leads.frame.handles
  have hHandles₂ := hInner.goes.leads.frame.handles
  have hHandles₃ := hRest.leads.frame.handles
  have hOps₂ : d₂.module.blockOps b = .ok cInner.tops := by
    have hOps := hInner.placed b [] rfl hBlock.ops
    rwa [List.nil_append] at hOps
  have hIn₃ : d₃.module.IsIn labels.region b :=
    (hBlock.isIn.frame hInner.goes.leads.frame).frame hRest.leads.frame
  rcases hRest.named with ⟨labels₃, hLabels₃, hBefore₃, hSound₃⟩
  have hBefore : d₂.LabelsBefore d₃ := by
    refine ⟨fun hNone => ?_, fun labels' hSome => ?_⟩
    · rw [hLabels₂] at hNone
      cases hNone
    · rw [hLabels₂, Option.some.injEq] at hSome
      exact ⟨labels₃, hLabels₃, hSome ▸ hBefore₃⟩
  have hHeads : Placed.heads (.block (b, head.args.map TypedName.entry) cInner cRest) =
          b :: cRest.heads := by simp [Placed.heads, Forest.blockRoots]
  refine
    { good := ?_
      leads := hLeads₃
      named := ⟨labels₃, hLabels₃, hBefore₂.trans hBefore₃, ?_⟩
      blocks := ?_
      isIn := ?_
      shows := ⟨?_, ?_, ?_, hRest.shows⟩
      code := ?_
      fresh := ?_
      labelled := ⟨?_, hRest.labelled⟩ }
  · simpa [Text.defs, Forest.gather] using hRest.good
  · simpa [Text.labels, Forest.blockRoots] using hSound₃
  · intro bs hBlocks
    have hBlocks₁ := hBlock.blocks bs hBlocks
    have hBlocks₂ :=
      hInner.goes.leads.frame.regionBlocks _ _ hBlocks₁ fun hOpen => hOpen
    have hBlocks₃ := hRest.blocks _ (hRegion ▸ hBlocks₂)
    rw [hRegion] at hBlocks₃
    simpa [hHeads] using hBlocks₃
  · intro c hMember
    rw [hHeads, List.mem_cons] at hMember
    rcases hMember with rfl | hLater
    · exact hIn₃
    · exact hRegion ▸ hRest.isIn c hLater
  · exact (hBlock.args.frame hInner.goes.leads.frame hInner.goes.leads.names
      hBlock.ops).frame hRest.leads.frame hRest.leads.names hOps₂
  · exact hRest.leads.frame.blockOps b _ hOps₂ fun hOpen => hOpen
  · refine hInner.shows.frame hRest.leads.frame hRest.leads.names
      (fun _ _ => hBefore.successor) ?_ (fun _ _ hOpen => hOpen)
    -- The regions in the block are newer than that of the block.
    intro r hMember hOpen
    have hNew := (hInner.fresh.ranged.bounds r hMember).1
    rcases hSound.region with ⟨_, hBlocks, -⟩
    have hOld := (hGood.bounded.of_regionBlocks hBlocks).1
    have hAfter := hHandles₁.region
    rw [hOpen, hRegion] at hNew
    omega
  · have hCode := hRest.code
    have hCodeInner := hInner.code
    simp_all [Placed.code, Text.code, Forest.map]
  · exact .widen (.block hInner.fresh hRest.fresh hHandles₂ hHandles₃) hHandles₁
  · exact hInner.labelled.mono fun _ => hBefore.hasLabel

end Blocks

section Regions

variable {inner : Text .blocks} {rest : Text .regions} {ids : List RegionId}
variable {cInner : Placed String .blocks} {cRest : Placed String .regions}

/- A region has no labels before its blocks are assembled. -/
theorem sound_empty (hEmpty : m.regionBlocks r = .ok []) :
    { region := r : BlockLabels }.Sound rule around [] m where
  region := ⟨[], hEmpty, .nil⟩
  defined := by
    intro n label hFound
    cases hFound
  blocks := by
    intro n label hFound
    cases hFound
  distinct := by
    intro n n' label label' hFound
    cases hFound
  expected := by
    intro _ n label hFound
    cases hFound
  nodup := List.nodup_nil

theorem RegionsDone.cons (hGood : d.Good rule all done reserved top) (hGiven : (r :: ids).Nodup)
    (hEmpty : ∀ s ∈ r :: ids, d.module.regionBlocks s = .ok []) (hInner :
      BlocksDone rule all done reserved top inner.labels [] { region := r } inner σ₁
        { d with labels := some { region := r } } d₁ cInner) (hLabels : d₁.labels = some labels)
    (hSound : labels.Sound rule inner.labels inner.labels d₁.module) (hRegion : labels.region = r)
    (hComplete : labels.Complete) (hRest :
      RegionsDone rule all (done ++ inner.defs) reserved top ids
        rest σ₂ { d₁ with labels := d.labels } d₂ cRest) :
    RegionsDone rule all done reserved top (r :: ids) (.region () inner rest) (σ₂ ∘ σ₁) d d₂
      (.region r cInner cRest) := by
  subst hRegion
  have hLeads₁ : d.Leads σ₁ (fun s => s ∈ labels.region :: ids)
        (fun _ => False) { d₁ with labels := d.labels } := by
    have hStart : d.Leads id (fun s => s ∈ labels.region :: ids) (fun _ => False) d := .refl d
    refine hStart.trans ⟨hInner.leads.frame, hInner.leads.names⟩
      (fun s hOpen => .inl ?_) (fun _ _ hOpen _ => hOpen) hGood.bounded
    rw [hOpen]
    exact .head _
  have hLeads₂ :=
    hLeads₁.trans hRest.leads (fun s hOpen => .inl (.tail _ hOpen))
      (fun _ _ hOpen _ => hOpen) hGood.bounded
  have hBelow : ∀ s ∈ labels.region :: ids, s.index < d.module.handles.region := by
    exact fun s hMember => (hGood.bounded.of_regionBlocks (hEmpty s hMember)).1
  have hBlocks₁ : d₁.module.regionBlocks labels.region = .ok cInner.heads :=
    hInner.blocks [] (hEmpty _ (.head _))
  have hApart : labels.region ∉ ids := (List.nodup_cons.mp hGiven).1
  refine
    { good := ?_
      leads := hLeads₂
      labels := hRest.labels
      roots := ?_
      shows := fun succ => ⟨⟨?_, ?_, ?_⟩, ?_, hRest.shows succ⟩
      code := ?_
      fresh := ?_
      labelled := fun known => ⟨hSound.nodup, ?_, hRest.labelled _⟩ }
  · simpa [Text.defs, Forest.gather] using hRest.good
  · simp [Forest.regionRoots, hRest.roots]
  · exact hRest.leads.frame.regionBlocks _ _ hBlocks₁ hApart
  · exact hSound.blocks_nodup hBlocks₁
  · intro b hMember
    exact (hInner.isIn b hMember).frame hRest.leads.frame
  · refine hInner.shows.frame hRest.leads.frame hRest.leads.names ?_ ?_ (fun _ _ hOpen => hOpen)
    · rintro b i ⟨labels', hSome, hNames⟩
      cases hLabels.symm.trans hSome
      exact hSound.isAt hComplete hBlocks₁ hNames
    · intro s hMember hOpen
      have hNew : d.module.handles.region ≤ s.index := (hInner.fresh.ranged.bounds s hMember).1
      have hOld := hBelow s (.tail _ hOpen)
      omega
  · intro around
    have hCode := hRest.code around
    have hCodeInner := hInner.code
    simp_all [Placed.code, Text.code, Forest.map]
  · exact .region hGiven hBelow hInner.fresh hRest.fresh
      hInner.leads.frame.handles hRest.leads.frame.handles
  · refine hInner.labelled.mono ?_
    rintro n ⟨labels', label, hSome, hFound⟩
    cases hLabels.symm.trans hSome
    exact (hSound.defined n label hFound).mp (hComplete n label hFound)

end Regions

variable (records : RecordTable)

----
-- The assembly of texts
----

/-
  A text can be assembled in every draft that follows the rules:
  its operations at the place of the draft, its regions as those
  of an operation, and its blocks in the innermost region.
-/
def Assembles (records : RecordTable) (rule : Prop)
    (all : List (String × Ty)) : (l : Layer) → Text l → Prop
  | .ops, t =>
    ∀ (d : Draft) (done todo : List (String × Ty)) (reserved : List ValueId) (top : List OpId)
      (around doneLabels : List String) (place : Option BlockId),
      d.Good rule all done reserved top → d.At rule around doneLabels place →
      all = done ++ t.defs ++ todo → (rule → t.Labelled (· ∈ around)) →
      Steps rule (forest records t (.ops place)) d fun _ d' =>
        ∃ σ c, OpsDone rule all done reserved top around doneLabels place t σ d d' c
  | .regions, t =>
    ∀ (d : Draft) (done todo : List (String × Ty)) (reserved : List ValueId) (top : List OpId)
      (ids : List RegionId), d.Good rule all done reserved top → ids.Nodup →
      (∀ r ∈ ids, d.module.regionBlocks r = .ok []) → ids.length = t.regionRoots.length →
      all = done ++ t.defs ++ todo → (rule → ∃ known, t.Labelled known) →
      Steps rule (forest records t (.regions ids)) d fun _ d' =>
        ∃ σ c, RegionsDone rule all done reserved top ids t σ d d' c
  | .blocks, t =>
    ∀ (d : Draft) (done todo : List (String × Ty)) (reserved : List ValueId) (top : List OpId)
      (doneLabels : List String) (labels : BlockLabels), d.Good rule all done reserved top →
      d.labels = some labels → labels.Sound rule (doneLabels ++ t.labels) doneLabels d.module →
      (rule → (doneLabels ++ t.labels).Nodup) → all = done ++ t.defs ++ todo →
      (rule → t.Labelled (· ∈ doneLabels ++ t.labels)) →
      Steps rule (forest records t .blocks) d fun _ d' =>
        ∃ σ c, BlocksDone rule all done reserved top
            (doneLabels ++ t.labels) doneLabels labels t σ d d' c

theorem assembles_nil (l : Layer) : Assembles records rule all l .nil := by
  cases l with
  | ops =>
    intro d done todo reserved top around doneLabels place hGood hAt _ _
    refine .pure ⟨id, .nil, ?_⟩
    refine
      { goes := ⟨?_, .refl d, hAt, .of_eq rfl⟩
        shows := trivial
        code := rfl
        fresh := .nil
        placed := ?_
        labelled := trivial }
    · cases place with
      | none => simpa [topAfter, Placed.tops, Forest.opRoots, Text.defs, Forest.gather] using hGood
      | some b => simpa [topAfter, Text.defs, Forest.gather] using hGood
    · simp [Placed.tops, Forest.opRoots]
  | regions =>
    intro d done todo reserved top ids hGood _ _ hCount _ _
    refine .pure ⟨id, .nil, ?_⟩
    have hNone : ids = [] := by simpa [Forest.regionRoots] using hCount
    exact
      { good := by simpa [Text.defs, Forest.gather] using hGood
        leads := .refl d
        labels := rfl
        roots := by simp [Forest.regionRoots, hNone]
        shows := fun _ => trivial
        code := fun _ => rfl
        fresh := .nil
        labelled := fun _ => trivial }
  | blocks =>
    intro d done todo reserved top doneLabels labels hGood hLabels hSound _ _ _
    refine .pure ⟨id, .nil, ?_⟩
    exact
      { good := by simpa [Text.defs, Forest.gather] using hGood
        leads := .refl d
        named := ⟨labels, hLabels, .refl labels, by
          simpa [Text.labels, Forest.blockRoots] using hSound⟩
        blocks := by simp [Placed.heads, Forest.blockRoots]
        isIn := by simp [Placed.heads, Forest.blockRoots]
        shows := trivial
        code := rfl
        fresh := .nil
        labelled := trivial }

theorem assembles_op (hOnce : rule → (all.map Prod.fst).Nodup)
    (hUses : rule → ∀ x ∈ h.2.operands, x.entry ∈ all)
    (hInner : Assembles records rule all .regions inner)
    (hRest : Assembles records rule all .ops rest) :
    Assembles records rule all .ops (.op h inner rest) := by
  intro d done todo reserved top around doneLabels place hGood hAt hAll hLabelled
  have hDefs : Text.defs (.op h inner rest) = inner.defs ++ (h.2.entries ++ rest.defs) := by
    simp [Text.defs, Forest.gather]
  rw [hDefs] at hAll
  have hDone : ∀ x ∈ done, x ∈ all := by
    intro x hMember
    rw [hAll]
    simp [hMember]
  have hAll₁ : all = done ++ inner.defs ++ (h.2.entries ++ rest.defs ++ todo) := by simp [hAll]
  have hAll₂ : all = done ++ inner.defs ++ h.2.entries ++ (rest.defs ++ todo) := by simp [hAll]
  have hAll₃ : all = done ++ inner.defs ++ h.2.entries ++ rest.defs ++ todo := by simp [hAll]
  refine .bind (Steps.mono (head_steps records h.1
    inner.regionRoots.length hGood hAt hDone hOnce hUses fun hRule => (hLabelled hRule).1) ?_) ?_
  · rintro o d₁ ⟨op, hHead, hLabels⟩
    refine .read_bind (Module.op_eq_ok_iff.mpr hHead.entry) ?_
    refine .bind (Steps.mono (hInner d₁ done _ _ _ op.regions hHead.goes.good hHead.regions.1
      (fun r hIn => (hHead.regions.2.2 r hIn).2.2) hHead.regions.2.1 hAll₁
      fun hRule => ⟨_, (hLabelled hRule).2.1⟩) ?_) ?_
    · rintro - d₂ ⟨σ₁, cInner, hRegions⟩
      rcases hRegions.leads.frame.ops o op hHead.entry with ⟨span, hEntry⟩
      refine .read_bind (Module.op_eq_ok_iff.mpr hEntry) ?_
      have hTypes := (hHead.defined.frame (fun _ => by simp) hRegions.leads.frame).typeOf
      refine .bind (Steps.mono (defineAll_steps records hRegions.good hTypes hAll₂ hOnce) ?_)
        fun _ => forest_grows records rest _
      rintro - d₃ ⟨σ₂, hKeeps, hNames⟩
      have hAt₃ := ((hHead.at_regions hGood hAt hRegions).keep hKeeps.leads
          hKeeps.labels fun _ _ hOpen => hOpen)
      refine Steps.mono (hRest d₃ _ todo _ _ around doneLabels place hKeeps.good hAt₃ hAll₃
        fun hRule => (hLabelled hRule).2.2) ?_
      rintro - d₄ ⟨σ₃, cRest, hOps⟩
      exact ⟨_, _, OpsDone.cons hGood hAt hHead hRegions hKeeps hNames hLabels hOps⟩
    · exact fun _ => .bind (.edit _) fun _ =>
        .bind (.forM fun x => define_grows records x.1 x.2) fun _ => forest_grows records rest _
  · exact fun _ => .bind (.edit _) fun _ =>
      .bind (forest_grows records inner _) fun _ =>
        .bind (.edit _) fun _ =>
          .bind (.forM fun x => define_grows records x.1 x.2) fun _ => forest_grows records rest _

theorem assembles_block (hOnce : rule → (all.map Prod.fst).Nodup)
    {inner : Text .ops} {rest : Text .blocks} (hInner : Assembles records rule all .ops inner)
    (hRest : Assembles records rule all .blocks rest) :
    Assembles records rule all .blocks (.block head inner rest) := by
  intro d done todo reserved top doneLabels labels hGood hLabels hSound hDistinct hAll hLabelled
  have hNames : doneLabels ++ Text.labels (.block head inner rest) =
        doneLabels ++ [head.name] ++ rest.labels := by simp [Text.labels, Forest.blockRoots]
  have hDefs : Text.defs (.block head inner rest) = head.args.map TypedName.entry ++
          (inner.defs ++ rest.defs) := rfl
  rw [hDefs] at hAll
  rw [hNames] at hSound hDistinct hLabelled ⊢
  have hAll₁ : all = done ++ head.args.map TypedName.entry ++
        (inner.defs ++ rest.defs ++ todo) := by simp [hAll]
  have hAll₂ : all = done ++ head.args.map TypedName.entry ++ inner.defs ++
        (rest.defs ++ todo) := by simp [hAll]
  have hAll₃ : all = done ++ head.args.map TypedName.entry ++ inner.defs ++ rest.defs ++ todo := by
    simp [hAll]
  have hNew : rule → head.name ∉ doneLabels := by
    intro hRule hMember
    have hNodup := hDistinct hRule
    rw [List.nodup_append, List.nodup_append] at hNodup
    exact hNodup.1.2.2 _ hMember _ (.head _) rfl
  refine .bind (Steps.mono (defineBlock_steps records hGood hLabels
    hSound hNew (by simp) hAll₁ hOnce) ?_) ?_
  · rintro found d₁ ⟨b, σ₁, rfl, hBlock⟩
    rcases hBlock.named with ⟨labels₁, hLabels₁, hBefore₁, hSound₁⟩
    refine .bind (Steps.mono (hInner d₁ _ _ _ _ _ _ (some b)
      hBlock.good ⟨labels₁, [], hLabels₁, hSound₁, hBlock.ops⟩ hAll₂
      fun hRule => (hLabelled hRule).1) ?_) fun _ => forest_grows records rest _
    rintro - d₂ ⟨σ₂, cInner, hOps⟩
    rcases hOps.goes.place with ⟨labels₂, os, hLabels₂, hSound₂, -⟩
    rcases hOps.goes.labels.2 labels₁ hLabels₁ with ⟨labels', hLabels', hBefore₂⟩
    cases hLabels₂.symm.trans hLabels'
    refine Steps.mono (hRest d₂ _ todo _ _ _ labels₂ hOps.goes.good hLabels₂ hSound₂ hDistinct hAll₃
      fun hRule => (hLabelled hRule).2) ?_
    rintro - d₃ ⟨σ₃, cRest, hBlocks⟩
    exact ⟨_, _, BlocksDone.cons hSound hBlock hGood hOps hLabels₂
      (hBefore₁.trans hBefore₂) hBlocks⟩
  · intro found
    cases found with
    | none => exact forest_grows records rest .blocks
    | some b =>
      exact .bind (forest_grows records inner _) fun _ => forest_grows records rest .blocks

theorem assembles_region {inner : Text .blocks} {rest : Text .regions}
    (hInner : Assembles records rule all .blocks inner)
    (hRest : Assembles records rule all .regions rest) :
    Assembles records rule all .regions (.region () inner rest) := by
  intro d done todo reserved top ids hGood hNodup hEmpty hCount hAll hLabelled
  have hDefs : Text.defs (.region () inner rest) = inner.defs ++ rest.defs := rfl
  rw [hDefs] at hAll
  have hAll₁ : all = done ++ inner.defs ++ (rest.defs ++ todo) := by simp [hAll]
  have hAll₂ : all = done ++ inner.defs ++ rest.defs ++ todo := by simp [hAll]
  cases ids with
  | nil => simp [Forest.regionRoots] at hCount
  | cons r ids =>
    rw [Forest.regionRoots, List.length_cons, List.length_cons, Nat.add_right_cancel_iff] at hCount
    refine .bind (inRegion_steps inner.labels (Steps.mono
      (hInner _ done _ reserved top [] { region := r } (hGood.relabel _) rfl
        (sound_empty (hEmpty r (.head _)))
        (fun hRule => (hLabelled hRule).choose_spec.1) hAll₁
        fun hRule => (hLabelled hRule).choose_spec.2.1) ?_)) ?_
    · rintro - d₁ ⟨σ₁, cInner, hBlocks⟩
      rcases hBlocks.named with ⟨labels, hLabels, hBefore, hSound⟩
      refine ⟨labels, hLabels, hSound, ?_⟩
      intro hComplete
      refine Steps.mono (hRest _ _ todo _ _ ids
        (hBlocks.good.relabel _) (List.nodup_cons.mp hNodup).2 ?_ hCount hAll₂ fun hRule => ?_) ?_
      · intro s hMember
        refine hBlocks.leads.frame.regionBlocks s [] (hEmpty s (.tail r hMember)) ?_
        rintro rfl
        exact (List.nodup_cons.mp hNodup).1 hMember
      · exact ⟨_, (hLabelled hRule).choose_spec.2.2⟩
      · rintro - d₂ ⟨σ₂, cRest, hRegions⟩
        exact ⟨_, _, RegionsDone.cons hGood hNodup hEmpty hBlocks
          hLabels hSound hBefore.1 hComplete hRegions⟩
    · exact fun _ => forest_grows records rest _

/-
  Every text whose uses are known can be assembled. The induction
  is over the text, and each layer is described in its own way.
-/
theorem assembles (hOnce : rule → (all.map Prod.fst).Nodup) (t : Text l)
    (hUses : rule → ∀ use ∈ t.uses, use ∈ all) : Assembles records rule all l t := by
  induction t with
  | nil => exact assembles_nil records _
  | op h inner rest ihInner ihRest =>
    simp only [Text.uses, Forest.gather, List.nil_append, List.mem_append] at hUses
    refine assembles_op records hOnce ?_ (ihInner ?_) (ihRest ?_)
    · intro hRule x hMember
      exact hUses hRule _ (.inl (List.mem_map_of_mem hMember))
    · exact fun hRule use hMember => hUses hRule use (.inr (.inl hMember))
    · exact fun hRule use hMember => hUses hRule use (.inr (.inr hMember))
  | region r inner rest ihInner ihRest =>
    simp only [Text.uses, Forest.gather, List.mem_append] at hUses
    refine assembles_region records (ihInner ?_) (ihRest ?_)
    · exact fun hRule use hMember => hUses hRule use (.inl hMember)
    · exact fun hRule use hMember => hUses hRule use (.inr hMember)
  | block head inner rest ihInner ihRest =>
    simp only [Text.uses, Forest.gather, List.nil_append, List.mem_append] at hUses
    refine assembles_block records hOnce (ihInner ?_) (ihRest ?_)
    · exact fun hRule use hMember => hUses hRule use (.inl hMember)
    · exact fun hRule use hMember => hUses hRule use (.inr hMember)

end Assemble

end FortranIR
