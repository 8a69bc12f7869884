import FortranIR.Proofs.Assembly.Values

/-
  This file states what the steps of assembly that deal with
  blocks do to a draft: branches name blocks of the innermost
  region, which are created when they are named first, and get
  arguments and a place when they are defined.

  Main declarations:
    * `Draft.At`
    * `Assemble.useBlocks_steps`
-/

namespace FortranIR

variable {first : Nat} {done around : List String} {reserved reserved' : List ValueId}
variable {d d₁ d₂ d₃ d' : Draft} {openRegion : RegionId → Prop} {place : Option BlockId}
variable {b : BlockId} {rule : Prop} {types : List Ty} {defined : Nat → ValueDef} {n : String}
variable {β α : Type} {top' top : List OpId} {labels : BlockLabels} {σ : ValueId → ValueId}
variable {m : Module} {done' all : List (String × Ty)} {openBlock : BlockId → Prop}

----
-- Labels
----

namespace BlockLabels

variable {m' : Module} {labels₁ labels₂ labels₃ : BlockLabels}

theorem Before.refl (labels : BlockLabels) : labels.Before labels :=
  ⟨rfl, fun _ label hFound => ⟨label, hFound, rfl⟩⟩

theorem Before.trans (hFirst : labels₁.Before labels₂) (hSecond : labels₂.Before labels₃) :
    labels₁.Before labels₃ := by
  refine ⟨hSecond.1.trans hFirst.1, ?_⟩
  intro n label hFound
  rcases hFirst.2 n label hFound with ⟨label₂, hFound₂, hSame₂⟩
  rcases hSecond.2 n label₂ hFound₂ with ⟨label₃, hFound₃, hSame₃⟩
  exact ⟨label₃, hFound₃, hSame₃.trans hSame₂⟩

/- Labels are sound as long as their region stays as it is. -/
theorem Sound.frame (hSound : labels.Sound rule around done m)
    (hFrame : m.Frame σ openRegion openBlock m') (hClosed : ¬ openRegion labels.region) :
    labels.Sound rule around done m' where
  region := by
    rcases hSound.region with ⟨bs, hBlocks, hNames⟩
    exact ⟨bs, hFrame.regionBlocks _ bs hBlocks hClosed, hNames⟩
  defined := hSound.defined
  blocks := by
    intro n label hFound
    rcases hSound.blocks n label hFound with ⟨info, hInfo, hRegion, hArgs⟩
    rcases hFrame.blocks _ info hInfo with ⟨info', hInfo', hRegion', hArgs'⟩
    refine ⟨info', hInfo', hRegion'.trans hRegion, ?_⟩
    intro hUndefined
    rw [hArgs' ?_, hArgs hUndefined]
    intro hOpen
    rw [hRegion] at hOpen
    exact absurd hOpen hClosed
  distinct := hSound.distinct
  expected := hSound.expected
  nodup := hSound.nodup

end BlockLabels

namespace Draft

/-
  The draft is at the module level, or in a block of a region
  whose block names are `around`, those in `done` so far.
-/
def At (rule : Prop) (around done : List String) (d : Draft) : Option BlockId → Prop
  | none => d.labels = none ∧ around = []
  | some b =>
    ∃ labels os, d.labels = some labels ∧ labels.Sound rule around done d.module ∧
      d.module.blockOps b = .ok os

/- A block has a name in the innermost region. -/
def Successor (around : List String) (d : Draft) (b : BlockId) (i : Nat) : Prop := ∃ labels,
    d.labels = some labels ∧ labels.Names around b i

/- The innermost region has a block of a name. -/
def HasLabel (d : Draft) (n : String) : Prop := ∃ labels label, d.labels = some labels ∧
    labels.blocks.lookup n = some label

/- The names of blocks in the innermost region stay. -/
def LabelsBefore (d d' : Draft) : Prop := (d.labels = none → d'.labels = none) ∧
    ∀ labels, d.labels = some labels → ∃ labels', d'.labels = some labels' ∧ labels.Before labels'

theorem LabelsBefore.of_eq (hSame : d'.labels = d.labels) : d.LabelsBefore d' :=
  ⟨fun hNone => hSame.trans hNone, fun labels hSome => ⟨labels, hSame.trans hSome, .refl labels⟩⟩

theorem LabelsBefore.trans (hFirst : d₁.LabelsBefore d₂) (hSecond : d₂.LabelsBefore d₃) :
    d₁.LabelsBefore d₃ := by
  refine ⟨fun hNone => hSecond.1 (hFirst.1 hNone), ?_⟩
  intro labels hSome
  rcases hFirst.2 labels hSome with ⟨labels₂, hSome₂, hBefore₂⟩
  rcases hSecond.2 labels₂ hSome₂ with ⟨labels₃, hSome₃, hBefore₃⟩
  exact ⟨labels₃, hSome₃, hBefore₂.trans hBefore₃⟩

theorem LabelsBefore.successor (hBefore : d.LabelsBefore d')
    (hSuccessor : d.Successor around b i) : d'.Successor around b i := by
  rcases hSuccessor with ⟨labels, hSome, n, label, hFound, hBlock, hPlace⟩
  rcases hBefore.2 labels hSome with ⟨labels', hSome', -, hKept⟩
  rcases hKept n label hFound with ⟨label', hFound', hSame⟩
  exact ⟨labels', hSome', n, label', hFound', hSame.trans hBlock, hPlace⟩

theorem LabelsBefore.hasLabel (hBefore : d.LabelsBefore d') (hLabel : d.HasLabel n) :
    d'.HasLabel n := by
  rcases hLabel with ⟨labels, label, hSome, hFound⟩
  rcases hBefore.2 labels hSome with ⟨labels', hSome', -, hKept⟩
  rcases hKept n label hFound with ⟨label', hFound', -⟩
  exact ⟨labels', label', hSome', hFound'⟩

/- Nothing happens to the place while its region is not open. -/
theorem At.keep (hAt : d.At rule around done place) (hLeads : d.Leads σ openRegion openBlock d')
    (hLabels : d'.labels = d.labels)
    (hClosed : ∀ labels, d.labels = some labels → ¬ openRegion labels.region) :
    d'.At rule around done place := by
  cases place with
  | none => exact ⟨hLabels.trans hAt.1, hAt.2⟩
  | some b =>
    rcases hAt with ⟨labels, os, hSome, hSound, hOps⟩
    rcases hLeads.frame.placed b os hOps with ⟨os', hOps'⟩
    exact ⟨labels, os', hLabels.trans hSome,
      hSound.frame hLeads.frame (hClosed labels hSome), hOps'⟩

end Draft

----
-- New blocks
----

theorem Module.DefinesAll.typeOf (hAll : m.DefinesAll defined vs types) :
    List.Forall₂ (fun v t => m.typeOf v = .ok t) vs types := by
  rw [List.forall₂_iff_get]
  refine ⟨hAll.1, ?_⟩
  intro i hValue hType
  rcases hAll.2 i _ _ (List.getElem?_eq_getElem hValue)
    (List.getElem?_eq_getElem hType) with ⟨users, hInfo⟩
  exact Module.typeOf_eq_ok_iff.mpr ⟨_, hInfo, rfl⟩

namespace Draft.Good

variable {done : List (String × Ty)}

/- Values that are new wait for a name. -/
theorem reserve {count : Nat} (hGood : d.Good rule all done reserved top)
    (hNew : d.module.DefinesAll defined (Module.valueIds first count) types)
    (hReal : ∀ i, defined i ≠ .placeholder)
    (hOld : ∀ v ∈ reserved ++ d.values.map Prod.snd, v.index < first) :
    d.Good rule all done (Module.valueIds first count ++ reserved) top where
  __ := hGood
  distinct := by
    rw [List.append_assoc, List.nodup_append]
    refine ⟨Module.nodup_valueIds _ _, hGood.distinct, ?_⟩
    intro v hMember w hOther hSame
    have hAbove := (Module.mem_valueIds.mp hMember).1
    have hBelow := hOld w hOther
    rw [hSame] at hAbove
    omega
  reserved := by
    intro v hMember
    rcases List.mem_append.mp hMember with hFirst | hRest
    · rcases hNew.exists_info hFirst with ⟨i, info, hInfo, -, hKind⟩
      exact ⟨info, hInfo, hKind ▸ hReal i⟩
    · exact hGood.reserved v hRest

/- Named and reserved values exist. -/
theorem below (hGood : d.Good rule all done reserved top) : ∀ v ∈ reserved ++ d.values.map Prod.snd,
      v.index < d.module.handles.value := by
  intro v hMember
  rcases List.mem_append.mp hMember with hReserved | hNamed
  · rcases hGood.reserved v hReserved with ⟨info, hInfo, -⟩
    exact hGood.bounded.values _ info hInfo
  · rcases List.mem_map.mp hNamed with ⟨e, hEntry, rfl⟩
    rcases hGood.values e hEntry with ⟨info, hInfo, -⟩
    exact hGood.bounded.values _ info hInfo

end Draft.Good

namespace Assemble

variable {done : List (String × Ty)} {doneLabels : List String}

/- A block without a place is added, with its arguments. -/
theorem newDetachedBlock_steps {r : RegionId} {bs : List BlockId} (types : List Ty)
    (hGood : d.Good rule all done reserved top) (hRegion : d.module.regionBlocks r = .ok bs) : ∃ m,
      Module.newDetachedBlock r types d.module = .ok ⟨d.module.handles.block⟩ m ∧ (∀ labels,
        { d with module := m, labels := labels : Draft }.Good rule all done
          (Module.valueIds d.module.handles.value types.length ++ reserved) top ∧
        d.Leads id (fun _ => False) (fun _ => False) { d with module := m, labels := labels }) ∧
      m.blocks[d.module.handles.block]? = some
          { region := r
            args := Module.valueIds d.module.handles.value types.length } ∧
      m.DefinesAll (.arg ⟨d.module.handles.block⟩)
        (Module.valueIds d.module.handles.value types.length) types := by
  rcases hGood.assembled.newDetachedBlock hRegion types with ⟨m, hRun, hAdds, hInfo, hArgs⟩
  refine ⟨m, hRun, fun labels => ⟨?_, hAdds.frame nofun, fun _ _ hKnown => hKnown⟩, hInfo, hArgs⟩
  exact (hGood.added hAdds labels).reserve hArgs (fun _ => by simp) hGood.below

----
-- Branches
----

/-
  What a step at a place does: the draft follows the rules as
  before, and is still at the place.
-/
structure Goes (rule : Prop) (all done : List (String × Ty)) (reserved : List ValueId)
    (top : List OpId) (around doneLabels : List String) (place : Option BlockId)
    (σ : ValueId → ValueId) (d d' : Draft) : Prop where
  good : d'.Good rule all done reserved top
  leads : d.Leads σ (fun _ => False) (fun b => place = some b) d'
  place : d'.At rule around doneLabels place
  labels : d.LabelsBefore d'

theorem Goes.refl (hGood : d.Good rule all done reserved top)
    (hAt : d.At rule around doneLabels place) :
    Goes rule all done reserved top around doneLabels place id d d :=
  ⟨hGood, .refl d, hAt, .of_eq rfl⟩

theorem Goes.trans {σ₁ σ₂ : ValueId → ValueId} (hFirst :
      Goes rule all done reserved top around doneLabels place σ₁ d₁ d₂)
    (hSecond : Goes rule all done' reserved' top' around doneLabels place σ₂ d₂ d₃)
    (hBounded : d₁.module.Bounded) :
    Goes rule all done' reserved' top' around doneLabels place (σ₂ ∘ σ₁) d₁ d₃ where
  good := hSecond.good
  leads := hFirst.leads.trans hSecond.leads (fun _ hOpen => .inl hOpen)
      (fun _ _ hOpen _ => hOpen) hBounded
  place := hSecond.place
  labels := hFirst.labels.trans hSecond.labels

/- A step that leaves blocks alone stays at the place. -/
theorem Keeps.goes (hKeeps : Keeps rule all done' reserved' top' σ d d')
    (hAt : d.At rule around doneLabels place) (hBounded : d.module.Bounded) :
    Goes rule all done' reserved' top' around doneLabels place σ d d' where
  good := hKeeps.good
  leads := (Draft.Leads.refl d).trans hKeeps.leads
      (fun _ hOpen => .inl hOpen) (fun _ _ hOpen _ => hOpen.elim) hBounded
  place := hAt.keep hKeeps.leads hKeeps.labels fun _ _ hOpen => hOpen
  labels := .of_eq hKeeps.labels

theorem addLabel_grows (labels : BlockLabels) (n : String) (label : BlockLabel) :
    Grows (addLabel labels n label) := .modify fun _ => rfl

theorem useBlock_grows (name : Name) : Grows (useBlock name) := by
  refine .get_bind fun d => ?_
  cases d.labels with
  | none => exact .bind (.error _ _) fun _ => .pure none
  | some labels =>
    dsimp only
    cases labels.blocks.lookup name.text with
    | some label => exact .pure _
    | none => exact .bind (.edit _) fun b => .bind (addLabel_grows _ _ _) fun _ => .pure _

/- A name without a block has not been defined. -/
theorem not_done (hSound : labels.Sound rule around doneLabels m)
    (hNew : labels.blocks.lookup n = none) : n ∉ doneLabels := by
  intro hMember
  rcases hSound.region with ⟨bs, -, hNames⟩
  rcases forall₂_mem_right hNames hMember with ⟨c, -, label, hFound, -⟩
  rw [hNew] at hFound
  cases hFound

/- All blocks but one keep their regions and arguments. -/
def KeepsBlocks (m m' : Module) (b : BlockId) : Prop := ∀ (c : BlockId) (info : BlockInfo), c ≠ b →
    m.blocks[c.index]? = some info →
    ∃ info', m'.blocks[c.index]? = some info' ∧ info'.region = info.region ∧ info'.args = info.args

/- A name is added, and its block is placed if it is defined. -/
theorem sound_added {label : BlockLabel} {info : BlockInfo} {bs : List BlockId} {m' : Module}
    (hSound : labels.Sound rule around doneLabels m)
    (hBlocks : m.regionBlocks labels.region = .ok bs) (hBlocks' : m'.regionBlocks labels.region =
        .ok (bs ++ if label.defined then [label.block] else []))
    (hInfo : m'.blocks[label.block.index]? = some info) (hRegion : info.region = labels.region)
    (hArgs : label.defined = false → info.args = []) (hOwn :
      ∀ n' label', labels.blocks.lookup n' = some label' → label'.block = label.block → n' = n)
    (hOld : ∀ label', labels.blocks.lookup n = some label' → label'.block = label.block)
    (hOthers : KeepsBlocks m m' label.block) (hNew : n ∉ doneLabels)
    (hExpected : rule → n ∈ around) : { labels with
      blocks := (n, label) :: labels.blocks
      : BlockLabels }.Sound rule around (doneLabels ++ if label.defined then [n] else []) m' := by
  refine
    { region := ⟨_, hBlocks', ?_⟩
      defined := ?_
      blocks := ?_
      distinct := ?_
      expected := ?_
      nodup := ?_ }
  · rcases hSound.region with ⟨bs', hBefore, hNames⟩
    cases hBlocks.symm.trans hBefore
    refine List.rel_append (hNames.imp ?_) ?_
    · rintro c n' ⟨label', hFound, hSame⟩
      by_cases hName : n' = n
      · subst hName
        exact ⟨label, List.lookup_cons_self, (hOld label' hFound).symm.trans hSame⟩
      · exact ⟨label', (lookup_cons_of_ne hName).trans hFound, hSame⟩
    · split
      · exact .cons ⟨label, List.lookup_cons_self, rfl⟩ .nil
      · exact .nil
  · intro n' label' hFound
    rcases lookup_cons_eq_some hFound with ⟨rfl, rfl⟩ | ⟨hName, hBefore⟩
    · split <;> simp_all
    · rw [hSound.defined n' label' hBefore]
      split <;> simp [hName]
  · intro n' label' hFound
    rcases lookup_cons_eq_some hFound with ⟨rfl, rfl⟩ | ⟨hName, hBefore⟩
    · exact ⟨info, hInfo, hRegion, hArgs⟩
    · rcases hSound.blocks n' label' hBefore with ⟨old, hBlock, hHome, hNone⟩
      have hDiffers : label'.block ≠ label.block :=
        fun hSame => hName (hOwn n' label' hBefore hSame)
      rcases hOthers _ old hDiffers hBlock with ⟨new, hBlock', hHome', hArgs'⟩
      exact ⟨new, hBlock', hHome'.trans hHome, fun hOpen => hArgs'.trans (hNone hOpen)⟩
  · intro n₁ n₂ label₁ label₂ hFound₁ hFound₂ hSame
    rcases lookup_cons_eq_some hFound₁ with ⟨rfl, rfl⟩ | ⟨hName₁, hBefore₁⟩
    · rcases lookup_cons_eq_some hFound₂ with ⟨rfl, rfl⟩ | ⟨_, hBefore₂⟩
      · rfl
      · exact (hOwn n₂ label₂ hBefore₂ hSame.symm).symm
    · rcases lookup_cons_eq_some hFound₂ with ⟨rfl, rfl⟩ | ⟨_, hBefore₂⟩
      · exact hOwn n₁ label₁ hBefore₁ hSame
      · exact hSound.distinct _ _ _ _ hBefore₁ hBefore₂ hSame
  · intro hRule n' label' hFound
    rcases lookup_cons_eq_some hFound with ⟨rfl, rfl⟩ | ⟨_, hBefore⟩
    · exact hExpected hRule
    · exact hSound.expected hRule n' label' hBefore
  · split
    · rw [← List.concat_eq_append]
      exact hSound.nodup.concat hNew
    · simpa using hSound.nodup

theorem useBlocks_grows (names : List Name) : Grows (useBlocks names) := by
  induction names with
  | nil => exact .pure []
  | cons n names ih => exact .bind (useBlock_grows n) fun _ => .bind ih fun _ => .pure _

variable (hGood : d.Good rule all done reserved top)
include hGood

/- The blocks of labels exist, so a new block is another one. -/
theorem labels_fresh (hSound : labels.Sound rule around doneLabels d.module) :
    ∀ n label, labels.blocks.lookup n = some label → label.block ≠ ⟨d.module.handles.block⟩ := by
  intro n label hFound hSame
  rcases hSound.blocks n label hFound with ⟨info, hInfo, -⟩
  have hBelow := (hGood.bounded.blocks _ info hInfo).1
  rw [hSame] at hBelow
  exact Nat.lt_irrefl _ hBelow

variable (hAt : d.At rule around doneLabels place)
include hAt

theorem useBlock_steps {name : Name} (hName : rule → name.text ∈ around) :
    Steps rule (useBlock name) d fun found d' =>
      Goes rule all done reserved top around doneLabels place id d d' ∧
      d.Leads id (fun _ => False) (fun _ => False) d' ∧ ∃ b, found = some b ∧
        d'.Successor around b (around.idxOf name.text) ∧ d'.HasLabel name.text := by
  refine .get_bind ?_
  cases place with
  | none =>
    rcases hAt with ⟨hLabels, hAround⟩
    simp only [hLabels]
    refine .bind_error (fun hRule => ?_) fun _ => .pure none
    have hMember := hName hRule
    rw [hAround] at hMember
    cases hMember
  | some place =>
    have hPlace := hAt
    rcases hAt with ⟨labels, os, hLabels, hSound, hOps⟩
    simp only [hLabels]
    cases hLookup : labels.blocks.lookup name.text with
    | some label =>
      refine .pure ⟨.refl hGood hPlace, .refl d, label.block, rfl, ?_, ?_⟩
      · exact ⟨labels, hLabels, name.text, label, hLookup, rfl, rfl⟩
      · exact ⟨labels, label, hLabels, hLookup⟩
    | none =>
      rcases hSound.region with ⟨bs, hBlocks, -⟩
      rcases newDetachedBlock_steps [] hGood hBlocks with ⟨m, hRun, hNext, hInfo, -⟩
      refine .edit_bind hRun ?_
      let b : BlockId := ⟨d.module.handles.block⟩
      let label : BlockLabel := ⟨b, name.span, false⟩
      let labels' : BlockLabels :=
        { labels with blocks := (name.text, label) :: labels.blocks }
      rcases hNext (some labels') with ⟨hGood', hLeads⟩
      refine .modify_bind rfl (.pure ?_)
      have hSound' := hSound.frame hLeads.frame (fun hOpen => hOpen)
      have hBlocks' := hLeads.frame.regionBlocks _ bs hBlocks fun hOpen => hOpen
      have hSoundNew : labels'.Sound rule around doneLabels m := by
        simpa using @sound_added _ _ _ _ _ _ label _ _ _ hSound' hBlocks' (by simpa [label] using hBlocks')
          hInfo rfl (fun _ => rfl) (fun n' label' hFound hSame =>
            absurd hSame (labels_fresh hGood hSound n' label' hFound)) (by simp [hLookup])
          (fun c info _ hOld => ⟨info, hOld, rfl, rfl⟩) (not_done hSound hLookup) hName
      have hFound : labels'.blocks.lookup name.text = some label := List.lookup_cons_self
      refine ⟨⟨hGood', ?_, ?_, ?_⟩, hLeads, b, rfl, ?_, ?_⟩
      · exact (Draft.Leads.refl d).trans hLeads
          (fun _ hOpen => .inl hOpen) (fun _ _ hOpen _ => hOpen.elim) hGood.bounded
      · rcases hLeads.frame.placed place os hOps with ⟨os', hOps'⟩
        exact ⟨labels', os', rfl, hSoundNew, hOps'⟩
      · refine ⟨fun hNone => ?_, fun old hOld => ?_⟩
        · rw [hLabels] at hNone
          cases hNone
        · cases hLabels.symm.trans hOld
          refine ⟨labels', rfl, rfl, ?_⟩
          intro n label' hOld
          refine ⟨label', ?_, rfl⟩
          rw [lookup_cons_of_ne]
          · exact hOld
          · rintro rfl
            rw [hLookup] at hOld
            cases hOld
      · exact ⟨labels', rfl, name.text, label, hFound, rfl, rfl⟩
      · exact ⟨labels', label, rfl, hFound⟩

theorem useBlocks_steps (hNames : rule → ∀ s ∈ names, s.text ∈ around) :
    Steps rule (useBlocks names) d fun bs d' =>
      Goes rule all done reserved top around doneLabels place id d d' ∧
      d.Leads id (fun _ => False) (fun _ => False) d' ∧
      List.Forall₂ (d'.Successor around) bs (names.map fun s => around.idxOf s.text) ∧
      ∀ s ∈ names, d'.HasLabel s.text := by
  induction names generalizing d with
  | nil => exact .pure ⟨.refl hGood hAt, .refl d, .nil, by simp⟩
  | cons n names ih =>
    refine .bind (Steps.mono (useBlock_steps hGood hAt fun hRule => hNames hRule n (by simp)) ?_) ?_
    · rintro found d₁ ⟨hGoes₁, hLeads₁, b, rfl, hFirst, hLabel⟩
      refine .bind (Steps.mono (ih hGoes₁.good hGoes₁.place
        fun hRule s hMember => hNames hRule s (by simp [hMember])) ?_) fun _ => .pure _
      rintro bs d₂ ⟨hGoes₂, hLeads₂, hRest, hLabels⟩
      refine .pure ⟨hGoes₁.trans hGoes₂ hGood.bounded, ?_, ?_, ?_⟩
      · exact hLeads₁.trans_closed hLeads₂ hGood.bounded
      · exact .cons (hGoes₂.labels.successor hFirst) hRest
      · intro s hMember
        rcases List.mem_cons.mp hMember with rfl | hLater
        · exact hGoes₂.labels.hasLabel hLabel
        · exact hLabels s hLater
    · intro found
      exact .bind (useBlocks_grows names) fun _ => .pure _

end Assemble

end FortranIR
