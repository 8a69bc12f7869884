import FortranIR.Proofs.Assembly.Draft

/-
  This file states what the steps of assembly that deal with
  values do to a draft: a name that is used becomes known, with
  a placeholder if it has to, and a name that is defined takes
  over the uses of its placeholder.

  Main declarations:
    * `Draft.Good.quiet`
    * `Assemble.defineAll_steps`
-/

namespace FortranIR

variable {vs reserved : List ValueId} {d d' : Draft}
variable {v : ValueId} {done all : List (String × Ty)}
variable {name : Name} {operand : TypedName}
variable {m : Module} {top : List OpId}

----
-- Known names
----

namespace Draft.Good

section

variable (hGood : d.Good rule all done reserved top)
include hGood

theorem valueNames_nodup : (d.values.map Prod.fst).Nodup := by
  rw [hGood.valueNames, List.nodup_reverse]
  exact hGood.doneNames

theorem lookup_value_iff : d.values.lookup n = some v ↔ (n, v) ∈ d.values :=
  lookup_eq_some_iff_mem hGood.valueNames_nodup n v

theorem lookup_value_none_iff : d.values.lookup n = none ↔ n ∉ done.map Prod.fst := by
  rw [lookup_eq_none_iff_notMem, hGood.valueNames, List.mem_reverse]

/- A name is known if it has been defined or waits. -/
theorem known_iff : Assemble.known? d n = some v ↔
      (n, v) ∈ d.values ∨ ∃ span, (n, v, span) ∈ d.forward := by
  unfold Assemble.known?
  cases hLookup : d.values.lookup n with
  | some w =>
    have hMember := hGood.lookup_value_iff.mp hLookup
    constructor
    · intro hSame
      rw [Option.some.injEq] at hSame
      exact .inl (hSame ▸ hMember)
    · rintro (hValue | ⟨span, hForward⟩)
      · rw [← hGood.lookup_value_iff, hLookup] at hValue
        exact hValue
      · have hName : n ∈ d.values.map Prod.fst := List.mem_map_of_mem hMember
        rw [hGood.valueNames, List.mem_reverse] at hName
        exact absurd hName (hGood.disjoint _ hForward)
  | none =>
    have hAbsent := lookup_eq_none_iff_notMem.mp hLookup
    rw [Option.map_eq_some_iff]
    constructor
    · rintro ⟨⟨w, span⟩, hFound, rfl⟩
      exact .inr ⟨span, mem_of_lookup hFound⟩
    · rintro (hValue | ⟨span, hForward⟩)
      · exact absurd (List.mem_map_of_mem hValue) hAbsent
      · exact ⟨(v, span), (lookup_eq_some_iff_mem hGood.forwardNames n _).mpr hForward, rfl⟩

/- What is known exists, and waits if it is a placeholder. -/
theorem exists_of_known (hKnown : Assemble.known? d n = some v) : ∃ info,
      d.module.values[v.index]? = some info ∧ (info.defined = .placeholder → v ∈ d.waiting) ∧
      (rule → (∀ x ∈ done, x ∈ all) → (n, info.type) ∈ all) := by
  rcases hGood.known_iff.mp hKnown with hValue | ⟨span, hForward⟩
  · rcases hGood.values _ hValue with ⟨info, hInfo, hReal, hDone⟩
    exact ⟨info, hInfo, fun hKind => absurd hKind hReal, fun _ hAll => hAll _ hDone⟩
  · rcases hGood.forward _ hForward with ⟨info, hInfo, -, hAll⟩
    exact ⟨info, hInfo, fun _ => List.mem_map_of_mem hForward, fun hRule _ => hAll hRule⟩

/- A value that is defined is no placeholder. -/
theorem ne_waiting (hWaits : (n, p, span) ∈ d.forward)
    (hInfo : d.module.values[v.index]? = some info) (hKind : info.defined ≠ .placeholder) :
    v ≠ p := by
  rintro rfl
  rcases hGood.forward _ hWaits with ⟨old, hOld, hOldKind, -⟩
  rw [hInfo, Option.some.injEq] at hOld
  exact hKind (hOld ▸ hOldKind)

end

/- Some values need not be named. -/
theorem drop_reserved (hGood : d.Good rule all done (vs ++ reserved) top) :
    d.Good rule all done reserved top where
  __ := hGood
  distinct := by
    have hSub : reserved.Sublist (vs ++ reserved) := List.sublist_append_right vs reserved
    exact hGood.distinct.sublist (hSub.append_right _)
  reserved := fun v hMember => hGood.reserved v (List.mem_append_right vs hMember)

section

variable (hGood : d.Good rule all done reserved top)
include hGood

/- A value that has been defined stays where it is. -/
theorem fixed_of_mem (hMember : (n, v) ∈ d.values) (hLeads : d.Leads σ openRegion openBlock d') :
    σ v = v := by
  rcases hGood.values _ hMember with ⟨info, hInfo, hKind, -⟩
  exact (hLeads.frame.values v info hInfo hKind).1

/- A value that waits for its name keeps its type. -/
theorem typeOf_reserved (hMember : v ∈ reserved) (hType : d.module.typeOf v = .ok t)
    (hLeads : d.Leads σ openRegion openBlock d') : d'.module.typeOf v = .ok t := by
  rcases hGood.reserved v hMember with ⟨info, hInfo, hKind⟩
  have hSame := (hLeads.frame.values v info hInfo hKind).1
  have hMoved := hLeads.frame.types v t hType
  rwa [hSame] at hMoved

----
-- Changes that leave values alone
----

/-
  A change of the module that keeps all values but for their
  users, and for placeholders that no name waits for any more.
-/
theorem moved {forward : List (String × ValueId × Span)} (hAssembled : m.Assembled)
    (hTop : m.top = top') (hLeft : forward.Sublist d.forward) (hKept : ∀ (v : ValueId) info,
        d.module.values[v.index]? = some info →
        (info.defined = .placeholder → v ∈ forward.map fun e => e.2.1) →
        ∃ users, m.values[v.index]? = some { info with users := users })
    (hOperands : ∀ (o : OpId) (op : Operation) (v : ValueId), m.ops[o.index]? = some op →
        v ∈ op.operands → ∃ info, d.module.values[v.index]? = some info ∧
          (info.defined = .placeholder → v ∈ forward.map fun e => e.2.1))
    (labels : Option BlockLabels) : { d with
      module := m, forward := forward, labels := labels
      : Draft }.Good rule all done reserved top' := by
  refine { hGood with
      assembled := hAssembled
      top := hTop
      operands := ?_
      forwardNames := hGood.forwardNames.sublist (hLeft.map _)
      forwardIds := hGood.forwardIds.sublist (hLeft.map _)
      forward := ?_
      disjoint := fun e hMember => hGood.disjoint e (hLeft.subset hMember)
      values := ?_
      reserved := ?_ }
  · intro o op v hOp hMember
    rcases hOperands o op v hOp hMember with ⟨info, hInfo, hWaits⟩
    rcases hKept v info hInfo hWaits with ⟨users, hInfo'⟩
    exact ⟨_, hInfo', hWaits⟩
  · intro e hMember
    rcases hGood.forward e (hLeft.subset hMember) with ⟨info, hInfo, hRest⟩
    rcases hKept _ info hInfo fun _ => List.mem_map_of_mem hMember with ⟨users, hInfo'⟩
    exact ⟨_, hInfo', hRest⟩
  · intro e hMember
    rcases hGood.values e hMember with ⟨info, hInfo, hReal, hDone⟩
    rcases hKept _ info hInfo fun hKind => absurd hKind hReal with ⟨users, hInfo'⟩
    exact ⟨_, hInfo', hReal, hDone⟩
  · intro v hMember
    rcases hGood.reserved v hMember with ⟨info, hInfo, hReal⟩
    rcases hKept _ info hInfo fun hKind => absurd hKind hReal with ⟨users, hInfo'⟩
    exact ⟨_, hInfo', hReal⟩

/- A change that keeps all values and operands. -/
theorem quiet (hAssembled : m.Assembled) (hTop : m.top = top') (hValues :
      ∀ (k : Nat) (info : ValueInfo), d.module.values[k]? = some info → m.values[k]? = some info)
    (hOps : m.ops = d.module.ops) (labels : Option BlockLabels) :
    { d with module := m, labels := labels : Draft }.Good rule all done reserved top' :=
  hGood.moved hAssembled hTop (List.Sublist.refl _)
    (fun _ info hInfo _ => ⟨info.users, hValues _ info hInfo⟩)
    (fun o op v hOp hMember => hGood.operands o op v (hOps ▸ hOp) hMember) labels

theorem added (hAdds : d.module.Adds opened m)
    (labels : Option BlockLabels) :
    { d with module := m, labels := labels : Draft }.Good rule all done reserved top :=
  hGood.quiet hAdds.assembled (hAdds.top.trans hGood.top) hAdds.values hAdds.ops labels

/- The names of blocks do not matter for values. -/
theorem relabel (labels : Option BlockLabels) :
    { d with labels := labels : Draft }.Good rule all done reserved top where
  __ := hGood

end

end Draft.Good

namespace Draft.Leads

variable {d₁ : Draft}

theorem refl (d : Draft) : d.Leads id openRegion openBlock d where
  frame := .refl d.module
  names := fun _ _ hKnown => hKnown

theorem trans (hFirst : d₁.Leads σ₁ openRegion openBlock d₂)
    (hSecond : d₂.Leads σ₂ openRegion₂ openBlock₂ d₃)
    (hRegions : ∀ r, openRegion₂ r → openRegion r ∨ d₁.module.handles.region ≤ r.index)
    (hBlocks : ∀ b os, openBlock₂ b → d₁.module.blockOps b = .ok os → openBlock b)
    (hBounded : d₁.module.Bounded) : d₁.Leads (σ₂ ∘ σ₁) openRegion openBlock d₃ where
  frame := hFirst.frame.trans hSecond.frame hRegions hBlocks hBounded
  names := by
    intro n v hKnown
    exact hSecond.names n _ (hFirst.names n v hKnown)

/- Nothing is open in the second step. -/
theorem trans_closed (hFirst : d₁.Leads σ₁ openRegion openBlock d₂) (hSecond :
      d₂.Leads σ₂ (fun _ => False) (fun _ => False) d₃) (hBounded : d₁.module.Bounded) :
    d₁.Leads (σ₂ ∘ σ₁) openRegion openBlock d₃ :=
  hFirst.trans hSecond (fun _ hOpen => hOpen.elim) (fun _ _ hOpen _ => hOpen.elim) hBounded

end Draft.Leads

----
-- Uses
----

/- Names with types are determined by the names. -/
theorem snd_eq_of_mem {κ β : Type} {entries : List (κ × β)} (hNames : (entries.map Prod.fst).Nodup)
    {k : κ} {v w : β} (hFirst : (k, v) ∈ entries) (hSecond : (k, w) ∈ entries) : v = w := by
  have hSame := List.inj_on_of_nodup_map hNames hFirst hSecond rfl
  exact congrArg Prod.snd hSame

namespace Assemble

/- A placeholder is added for a name that is not known. -/
theorem placeholder_good (hGood : d.Good rule all done reserved top)
    (hUnknown : known? d operand.text = none) (hUse : rule → operand.entry ∈ all)
    (hAdds : d.module.Adds opened m) (hNew :
      m.values[d.module.handles.value]? = some { type := operand.type, defined := .placeholder }) :
    { d with
      module := m
      forward :=
        (operand.text, ⟨d.module.handles.value⟩, operand.span)
          :: d.forward : Draft }.Good rule all done reserved top := by
  have hNotDone : operand.text ∉ done.map Prod.fst := by
    rw [← hGood.lookup_value_none_iff]
    unfold known? at hUnknown
    cases hLookup : d.values.lookup operand.text with
    | none => rfl
    | some v => simp [hLookup] at hUnknown
  have hNotWaiting : operand.text ∉ d.forward.map Prod.fst := by
    intro hMember
    rcases List.mem_map.mp hMember with ⟨⟨n, v, span⟩, hEntry, rfl⟩
    have hKnown := hGood.known_iff.mpr (.inr ⟨span, hEntry⟩)
    rw [hUnknown] at hKnown
    cases hKnown
  have hQuiet := hGood.added hAdds d.labels
  refine { hQuiet with
      operands := ?_
      forwardNames := ?_
      forwardIds := ?_
      forward := ?_
      disjoint := ?_ }
  · intro o op v hOp hMember
    rcases hQuiet.operands o op v hOp hMember with ⟨info, hInfo, hWaits⟩
    exact ⟨info, hInfo, fun hKind => .tail _ (hWaits hKind)⟩
  · exact List.nodup_cons.mpr ⟨hNotWaiting, hGood.forwardNames⟩
  · refine List.nodup_cons.mpr ⟨?_, hGood.forwardIds⟩
    intro hMember
    rcases List.mem_map.mp hMember with ⟨e, hEntry, hSame⟩
    rcases hGood.forward e hEntry with ⟨info, hInfo, -⟩
    have hBelow := hGood.bounded.values _ info hInfo
    rw [hSame] at hBelow
    exact Nat.lt_irrefl _ hBelow
  · intro e hMember
    rcases List.mem_cons.mp hMember with rfl | hOldEntry
    · exact ⟨_, hNew, rfl, hUse⟩
    · exact hQuiet.forward e hOldEntry
  · intro e hMember
    rcases List.mem_cons.mp hMember with rfl | hOldEntry
    · exact hNotDone
    · exact hGood.disjoint e hOldEntry

/-
  What a step does that leaves blocks and their names alone: the
  draft follows the rules as before, and values have been
  replaced as `σ` says.
-/
structure Keeps (rule : Prop) (all done : List (String × Ty)) (reserved : List ValueId)
    (top : List OpId) (σ : ValueId → ValueId) (d d' : Draft) : Prop where
  good : d'.Good rule all done reserved top
  leads : d.Leads σ (fun _ => False) (fun _ => False) d'
  labels : d'.labels = d.labels

/- A name stands for a value of a type. -/
def Means (d : Draft) (v : ValueId) (x : String × Ty) : Prop :=
  known? d x.1 = some v ∧ d.module.typeOf v = .ok x.2

theorem Means.leads (hMeans : Means d v x)
    (hLeads : d.Leads σ openRegion openBlock d') : Means d' (σ v) x :=
  ⟨hLeads.names _ _ hMeans.1, hLeads.frame.types _ _ hMeans.2⟩

theorem useValue_grows (records : RecordTable) (operand : TypedName) :
    Grows (useValue records operand) := by
  refine .get_bind ?_
  intro d
  cases known? d operand.text with
  | some v =>
    refine .bind (.edit _) ?_
    intro t
    split
    · exact .bind (.error _ _) fun _ => .pure v
    · exact .pure v
  | none =>
    refine .bind (.edit _) ?_
    intro v
    exact .bind (.modify fun _ => rfl) fun _ => .pure v

section

variable (records : RecordTable) (hGood : d.Good rule all done reserved top)
variable (hDone : ∀ x ∈ done, x ∈ all)
variable (hOnce : rule → (all.map Prod.fst).Nodup)
include records hGood hDone hOnce

theorem useValue_steps (hUse : rule → operand.entry ∈ all) :
    Steps rule (useValue records operand) d fun v d' =>
      Keeps rule all done reserved top id d d' ∧ Means d' v operand.entry := by
  refine .get_bind ?_
  cases hKnown : known? d operand.text with
  | some v =>
    rcases hGood.exists_of_known hKnown with ⟨info, hInfo, -, hAll⟩
    have hType : d.module.typeOf v = .ok info.type := Module.typeOf_eq_ok_iff.mpr ⟨info, hInfo, rfl⟩
    refine .read_bind hType ?_
    split
    · rename_i hDiffers
      refine .bind_error ?_ fun _ => .pure v
      intro hRule
      exact hDiffers (snd_eq_of_mem (hOnce hRule) (hAll hRule hDone) (hUse hRule))
    · rename_i hSame
      rw [not_not] at hSame
      rw [hSame] at hType
      exact .pure ⟨⟨hGood, .refl d, rfl⟩, hKnown, hType⟩
  | none =>
    rcases hGood.assembled.newPlaceholder operand.type with ⟨m, hRun, hAdds, hNew⟩
    have hNext := placeholder_good hGood hKnown hUse hAdds hNew
    refine .edit_bind hRun (.modify_bind rfl (.pure ⟨⟨hNext, ⟨hAdds.frame nofun, ?_⟩, rfl⟩, ?_, ?_⟩))
    · intro n v hOld
      rw [hNext.known_iff]
      rcases hGood.known_iff.mp hOld with hValue | ⟨span, hWaits⟩
      · exact .inl hValue
      · exact .inr ⟨span, .tail _ hWaits⟩
    · exact hNext.known_iff.mpr (.inr ⟨_, .head _⟩)
    · exact Module.typeOf_eq_ok_iff.mpr ⟨_, hNew, rfl⟩

theorem useValues_steps {operands : List TypedName} (hUses : rule → ∀ x ∈ operands, x.entry ∈ all) :
    Steps rule (operands.mapM (useValue records)) d fun vs d' =>
      Keeps rule all done reserved top id d d' ∧
      List.Forall₂ (Means d') vs (operands.map TypedName.entry) := by
  induction operands generalizing d with
  | nil => exact .pure ⟨⟨hGood, .refl d, rfl⟩, .nil⟩
  | cons operand operands ih =>
    rw [List.mapM_cons]
    have hGrows := useValue_grows records
    refine .bind (Steps.mono (useValue_steps records hGood hDone
      hOnce fun hRule => hUses hRule operand (by simp)) ?_) ?_
    · rintro v d₁ ⟨hKeeps₁, hMeans⟩
      refine .bind (Steps.mono (ih hKeeps₁.good fun hRule x
        hMember => hUses hRule x (by simp [hMember])) ?_) fun _ => .pure _
      rintro vs d₂ ⟨hKeeps₂, hRest⟩
      refine .pure ⟨⟨hKeeps₂.good, ?_, ?_⟩, ?_⟩
      · exact hKeeps₁.leads.trans_closed hKeeps₂.leads hGood.bounded
      · exact hKeeps₂.labels.trans hKeeps₁.labels
      · exact .cons (hMeans.leads hKeeps₂.leads) hRest
    · intro v
      exact .bind (.mapM hGrows) fun _ => .pure _

end

----
-- Definitions
----

/- A value that has been reserved takes a name. -/
theorem reserved_named (hDistinct : ((v :: reserved) ++ names).Nodup) :
    (reserved ++ v :: names).Nodup := by
  have hPerm : (v :: reserved ++ names).Perm (reserved ++ v :: names) := List.perm_middle.symm
  exact hPerm.nodup_iff.mp hDistinct

theorem resolve_grows (records : RecordTable) (name : Name) (p v : ValueId) :
    Grows (resolve records name p v) := by
  refine .bind (.edit _) fun used => .bind (.edit _) fun defined => ?_
  have hEnd : Grows (do
        edit (Module.replaceAllUses p v)
        edit (Module.removePlaceholder p)) := .bind (.edit _) fun _ => .edit _
  split
  · exact .bind (.error _ _) fun _ => hEnd
  · exact hEnd

theorem define_grows (records : RecordTable) (name : Name) (v : ValueId) :
    Grows (define records name v) := by
  refine .get_bind fun d => ?_
  split
  · exact .error _ _
  · cases d.forward.lookup name.text with
    | none => exact .modify fun _ => rfl
    | some entry =>
      exact .bind (.modify fun _ => rfl) fun _ =>
        .bind (resolve_grows records name _ v) fun _ => .modify fun _ => rfl

/- Operands other than the placeholder stay, or are the value. -/
theorem mem_replaced (hMember : w ∈ vs.map (Module.replaced p v)) : w = v ∨ w ∈ vs ∧ w ≠ p := by
  rcases Module.mem_map_replaced.mp hMember with ⟨hSame, -⟩ | ⟨hOther, hOld⟩
  · exact .inl hSame
  · exact .inr ⟨hOld, hOther⟩

section

variable (hGood : d.Good rule all done (v :: reserved) top)

include hGood

/- The draft in which a placeholder has been resolved. -/
theorem resolved_good (hWaits : (n, p, span) ∈ d.forward) (hResolved : d.module.Resolved p v m) :
    { d with
      module := m
      forward := d.forward.filter fun e => e.1 ≠ n
      : Draft }.Good rule all done (v :: reserved) top := by
  have hEntry : ∀ e ∈ d.forward, e.2.1 ≠ p ↔ e.1 ≠ n := by
    intro e hMember
    refine not_congr ⟨?_, ?_⟩
    · intro hSame
      have hEq := List.inj_on_of_nodup_map hGood.forwardIds hMember hWaits hSame
      rw [hEq]
    · intro hSame
      have hEq :=
        List.inj_on_of_nodup_map hGood.forwardNames hMember hWaits hSame
      rw [hEq]
  refine hGood.moved hResolved.assembled (hResolved.top.trans hGood.top) List.filter_sublist
    (fun w info hInfo hWaiting => hResolved.values _ info hInfo ?_)
    (fun o op' w hOp' hMember => ?_) d.labels
  · rintro rfl
    rcases hGood.forward _ hWaits with ⟨old, hOld, hKind, -⟩
    cases hInfo.symm.trans hOld
    rcases List.mem_map.mp (hWaiting hKind) with ⟨e, hLeft, hSame⟩
    rcases List.mem_filter.mp hLeft with ⟨hOldEntry, hName⟩
    exact (hEntry e hOldEntry).mpr (of_decide_eq_true hName) hSame
  · rw [hResolved.ops, Option.map_eq_some_iff] at hOp'
    rcases hOp' with ⟨op, hOp, rfl⟩
    rcases mem_replaced hMember with rfl | ⟨hOld, hOther⟩
    · rcases hGood.reserved w (.head _) with ⟨target, hTarget, hKind⟩
      exact ⟨target, hTarget, fun hPlaceholder => absurd hPlaceholder hKind⟩
    · rcases hGood.operands o op w hOp hOld with ⟨info, hInfo, hWaiting⟩
      refine ⟨info, hInfo, fun hKind => ?_⟩
      rcases List.mem_map.mp (hWaiting hKind) with ⟨e, hOldEntry, rfl⟩
      exact List.mem_map_of_mem (List.mem_filter.mpr
        ⟨hOldEntry, decide_eq_true ((hEntry e hOldEntry).mp hOther)⟩)

variable (hType : d.module.typeOf v = .ok t)

include hType

/- A name that is not known is defined. -/
theorem named_good (hNotDone : n ∉ done.map Prod.fst) (hNotWaiting : n ∉ d.forward.map Prod.fst) :
    { d with values := (n, v) :: d.values : Draft }.Good rule all
      (done ++ [(n, t)]) reserved top := by
  refine { hGood with
      disjoint := ?_
      doneNames := ?_
      valueNames := ?_
      values := ?_
      distinct := reserved_named hGood.distinct
      reserved := fun w hMember => hGood.reserved w (.tail _ hMember) }
  · intro e hMember
    rw [List.map_append, List.mem_append, not_or]
    refine ⟨hGood.disjoint e hMember, ?_⟩
    simp only [List.map_cons, List.map_nil, List.mem_singleton]
    intro hSame
    exact hNotWaiting (hSame ▸ List.mem_map_of_mem hMember)
  · rw [List.map_append, List.map_singleton, ← List.concat_eq_append]
    exact hGood.doneNames.concat hNotDone
  · rw [List.map_append, List.reverse_append, List.map_cons, hGood.valueNames]
    rfl
  · intro e hMember
    rcases List.mem_cons.mp hMember with rfl | hOld
    · rcases hGood.reserved v (.head _) with ⟨info, hInfo, hKind⟩
      rcases Module.typeOf_eq_ok_iff.mp hType with ⟨info', hInfo', hSame⟩
      cases hInfo.symm.trans hInfo'
      exact ⟨info, hInfo, hKind, by simp [hSame]⟩
    · rcases hGood.values e hOld with ⟨info, hInfo, hKind, hDone⟩
      exact ⟨info, hInfo, hKind, List.mem_append_left _ hDone⟩

/- A name follows the value in the place of its placeholder. -/
theorem resolved_leads
    (hGood' : d'.Good rule all (done ++ [(n, t)]) reserved top) (hWaits : (n, p, span) ∈ d.forward)
    (hDistinct : p ≠ v) (hUsed : d.module.typeOf p = .ok t)
    (hResolved : d.module.Resolved p v d'.module) (hValues : d'.values = (n, v) :: d.values)
    (hForward : d'.forward = d.forward.filter fun e => e.1 ≠ n) :
    d.Leads (Module.replaced p v) (fun _ => False) (fun _ => False) d' := by
  refine ⟨.of_replacement ?_ ?_ ?_ ?_ hResolved.blocks hResolved.regions, ?_⟩
  · rw [hResolved.handles]
    exact .refl _
  · intro k op hOp
    rw [hResolved.ops, hOp]
    rfl
  · intro w t' hOld
    rcases Module.typeOf_eq_ok_iff.mp hOld with ⟨info, hInfo, hSame⟩
    rw [Module.typeOf_eq_ok_iff]
    unfold Module.replaced
    split
    · rename_i hSelf
      subst hSelf
      rw [hUsed, Except.ok.injEq] at hOld
      rcases Module.typeOf_eq_ok_iff.mp hType with ⟨target, hTarget, hTargetType⟩
      rcases hResolved.values _ target hTarget (Ne.symm hDistinct) with ⟨users, hNew⟩
      exact ⟨_, hNew, hTargetType.trans hOld⟩
    · rename_i hOther
      rcases hResolved.values _ _ hInfo hOther with ⟨users, hInfo'⟩
      exact ⟨_, hInfo', hSame⟩
  · intro w info hInfo hKind
    have hOther := hGood.ne_waiting hWaits hInfo hKind
    exact ⟨if_neg hOther, hResolved.values _ _ hInfo hOther⟩
  · intro m w hKnown
    rw [hGood'.known_iff, hValues, hForward]
    rcases hGood.known_iff.mp hKnown with hValue | ⟨span', hEntry⟩
    · rcases hGood.values _ hValue with ⟨info, hInfo, hKind, -⟩
      have hOther := hGood.ne_waiting hWaits hInfo hKind
      unfold Module.replaced
      rw [if_neg hOther]
      exact .inl (.tail _ hValue)
    · by_cases hName : m = n
      · subst hName
        have hSame := List.inj_on_of_nodup_map hGood.forwardNames hEntry hWaits rfl
        rw [Prod.mk.injEq, Prod.mk.injEq] at hSame
        rw [hSame.2.1]
        unfold Module.replaced
        rw [if_pos rfl]
        exact .inl (.head _)
      · have hOther : w ≠ p := by
          rintro rfl
          have hSame := List.inj_on_of_nodup_map hGood.forwardIds hEntry hWaits rfl
          rw [Prod.mk.injEq] at hSame
          exact hName hSame.1
        unfold Module.replaced
        rw [if_neg hOther]
        refine .inr ⟨span', List.mem_filter.mpr ⟨hEntry, ?_⟩⟩
        simpa using hName

theorem resolve_steps (records : RecordTable) (hWaits : (n, p, span) ∈ d.forward)
    (hSame : rule → ∀ used, d.module.typeOf p = .ok used → used = t) :
    Steps rule (resolve records name p v) { d with forward := forward } fun _ d' =>
      ∃ m, p ≠ v ∧ d.module.Resolved p v m ∧ d.module.typeOf p = .ok t ∧
        d' = { d with module := m, forward := forward } := by
  rcases hGood.forward _ hWaits with ⟨info, hInfo, hKind, -⟩
  rcases hGood.reserved v (.head _) with ⟨target, hTarget, hReal⟩
  have hUsed : d.module.typeOf p = .ok info.type := Module.typeOf_eq_ok_iff.mpr ⟨info, hInfo, rfl⟩
  rcases hGood.assembled.resolve hInfo hKind hTarget hReal with
    ⟨hDistinct, m₁, m₂, hReplace, hRemove, hResolved⟩
  refine .read_bind hUsed (.read_bind hType ?_)
  split
  · rename_i hDiffers
    refine .bind_error (fun hRule => ?_) fun _ => .bind (.edit _) fun _ => .edit _
    exact hDiffers (hSame hRule _ hUsed)
  · rename_i hEqual
    rw [not_not] at hEqual
    refine .edit_bind hReplace ?_
    refine .edit hRemove ⟨m₂, hDistinct, hResolved, ?_, rfl⟩
    rw [hUsed, hEqual]

theorem define_steps (records : RecordTable) (hAll : all = done ++ (name.text, t) :: todo)
    (hOnce : rule → (all.map Prod.fst).Nodup) : Steps rule (define records name v) d fun _ d' =>
      ∃ σ, Keeps rule all (done ++ [(name.text, t)]) reserved top σ d d' ∧
        known? d' name.text = some v := by
  have hNotDone : rule → name.text ∉ done.map Prod.fst := by
    intro hRule hMember
    have hNames := hOnce hRule
    rw [hAll, List.map_append, List.nodup_append] at hNames
    exact hNames.2.2 _ hMember _ (by simp) rfl
  refine .get_bind ?_
  split
  · rename_i hTaken
    refine .error fun hRule => hNotDone hRule ?_
    by_contra hAbsent
    rw [hGood.lookup_value_none_iff.mpr hAbsent] at hTaken
    simp at hTaken
  · rename_i hFree
    have hAbsent : name.text ∉ done.map Prod.fst := by
      rw [← hGood.lookup_value_none_iff]
      exact Option.not_isSome_iff_eq_none.mp hFree
    cases hLookup : d.forward.lookup name.text with
    | none =>
      have hNotWaiting := lookup_eq_none_iff_notMem.mp hLookup
      have hNext := named_good hGood hType hAbsent hNotWaiting
      refine .of_ok rfl rfl ⟨id, ⟨hNext, ⟨.refl _, ?_⟩, rfl⟩, ?_⟩
      · intro n w hKnown
        rw [hNext.known_iff]
        rcases hGood.known_iff.mp hKnown with hValue | hWaits
        · exact .inl (.tail _ hValue)
        · exact .inr hWaits
      · exact hNext.known_iff.mpr (.inl (.head _))
    | some entry =>
      rcases entry with ⟨p, span⟩
      have hWaits := mem_of_lookup hLookup
      refine .modify_bind rfl ?_
      refine .bind (Steps.mono (resolve_steps hGood hType records hWaits ?_) ?_)
        fun _ => .modify fun _ => rfl
      · intro hRule used hUsed
        rcases hGood.forward _ hWaits with ⟨info, hInfo, -, hIn⟩
        rcases Module.typeOf_eq_ok_iff.mp hUsed with ⟨info', hInfo', rfl⟩
        cases hInfo.symm.trans hInfo'
        exact snd_eq_of_mem (hOnce hRule) (hIn hRule) (by simp [hAll])
      · rintro - d₁ ⟨m, hDistinct, hResolved, hUsed, rfl⟩
        have hMiddle := resolved_good hGood hWaits hResolved
        have hKept : m.typeOf v = .ok t := by
          rcases Module.typeOf_eq_ok_iff.mp hType with ⟨info, hInfo, hSame⟩
          rcases hResolved.values _ info hInfo (Ne.symm hDistinct) with ⟨users, hNew⟩
          exact Module.typeOf_eq_ok_iff.mpr ⟨_, hNew, hSame⟩
        have hNext := named_good hMiddle hKept hAbsent (by simp)
        refine .of_ok rfl rfl ⟨Module.replaced p v, ⟨hNext, ?_, rfl⟩, ?_⟩
        · exact resolved_leads hGood hType hNext hWaits hDistinct hUsed hResolved rfl rfl
        · exact hNext.known_iff.mpr (.inl (.head _))

end

theorem defineAll_steps (records : RecordTable) (hGood : d.Good rule all done (vs ++ reserved) top)
    (hTypes : List.Forall₂ (fun v t => d.module.typeOf v = .ok t) vs types)
    (hAll : all = done ++ (names.map Name.text).zip types ++ todo)
    (hOnce : rule → (all.map Prod.fst).Nodup) :
    Steps rule (defineAll records names vs) d fun _ d' =>
      ∃ σ, Keeps rule all (done ++ (names.map Name.text).zip types) reserved top σ d d' ∧
        (vs.take ((names.map Name.text).zip types).length).map some =
          ((names.map Name.text).zip types).map fun x => known? d' x.1 := by
  induction names generalizing vs types done d with
  | nil =>
    refine .pure ⟨id, ⟨?_, .refl d, rfl⟩, by simp⟩
    simpa using hGood.drop_reserved
  | cons name names ih =>
    cases hTypes with
    | nil =>
      refine .pure ⟨id, ⟨?_, .refl d, rfl⟩, by simp⟩
      simpa using hGood.drop_reserved
    | cons hType hTypes =>
      rename_i v t vs types
      simp only [List.map_cons, List.zip_cons_cons] at hAll ⊢
      refine .bind (Steps.mono (define_steps hGood hType records
        (by rw [hAll, List.append_assoc, List.cons_append]) hOnce) ?_) ?_
      · rintro - d₁ ⟨σ₁, hKeeps₁, hKnown⟩
        have hTypes₁ : List.Forall₂ (fun v t => d₁.module.typeOf v = .ok t) vs types := by
          have hMembers : List.Forall₂ (fun v t => v ∈ vs ∧ d.module.typeOf v = .ok t) vs types :=
            (List.forall₂_and_left vs types).mpr ⟨fun _ hMember => hMember, hTypes⟩
          refine hMembers.imp ?_
          rintro w t' ⟨hMember, hOld⟩
          exact hGood.typeOf_reserved (by simp [hMember]) hOld hKeeps₁.leads
        refine Steps.mono (ih hKeeps₁.good hTypes₁ (by rw [hAll]; simp)) ?_
        rintro - d₂ ⟨σ₂, hKeeps₂, hRest⟩
        refine ⟨σ₂ ∘ σ₁, ⟨?_, ?_, ?_⟩, ?_⟩
        · simpa using hKeeps₂.good
        · exact hKeeps₁.leads.trans_closed hKeeps₂.leads hGood.bounded
        · exact hKeeps₂.labels.trans hKeeps₁.labels
        · have hNamed : (name.text, v) ∈ d₁.values := by
            rcases hKeeps₁.good.known_iff.mp hKnown with hValue | ⟨span, hWaits⟩
            · exact hValue
            · exact absurd (by simp) (hKeeps₁.good.disjoint _ hWaits)
          have hFixed := hKeeps₁.good.fixed_of_mem hNamed hKeeps₂.leads
          have hStill := hKeeps₂.leads.names _ _ hKnown
          rw [hFixed] at hStill
          simp only [List.length_cons, List.take_succ_cons, List.map_cons, hStill, hRest]
      · intro _
        exact .forM fun x => define_grows records x.1 x.2

end Assemble

end FortranIR
