import FortranIR.Proofs.Assembly.Run

/-
  This file proves that the assembly of items logs no error if
  and only if the items are well scoped, and that the module then
  has what the items say: operands are the values of their names,
  and successors are the blocks of their labels.

  Main declarations:
    * `Module.Settled`
    * `Assemble.logs_no_error_iff_wellScoped`
-/

namespace FortranIR

variable {rule : Prop} {d' d : Draft} {reserved : List ValueId}
variable {all done : List (String × Ty)} {σ : ValueId → ValueId} {t : Text .ops}

----
-- Modules between items
----

/-
  A module between operations of the module level: no operation
  has a placeholder as operand.
-/
structure Module.Settled (m : Module) : Prop where
  bounded : m.Bounded
  operands : ∀ (o : OpId) (op : Operation) (v : ValueId), m.ops[o.index]? = some op →
      v ∈ op.operands → ∃ info, m.values[v.index]? = some info ∧ info.defined ≠ .placeholder

theorem Module.settled_empty (handles : Handles) : (Module.emptyAfter handles).Settled := by
  refine ⟨(Module.Assembled.of_empty handles).bounded, ?_⟩
  simp [Module.emptyAfter]

/- An item can be begun in a module between items. -/
theorem Module.Settled.good (hSettled : d.module.Settled) (hAssembled : d.module.Assembled)
    (rule : Prop) (all : List (String × Ty)) :
    { d with values := [], forward := [] : Draft }.Good rule all [] [] d.module.top where
  assembled := hAssembled
  top := rfl
  operands := by
    intro o op v hOp hMember
    rcases hSettled.operands o op v hOp hMember with ⟨info, hInfo, hReal⟩
    exact ⟨info, hInfo, fun hKind => absurd hKind hReal⟩
  forwardNames := List.nodup_nil
  forwardIds := List.nodup_nil
  forward := by simp
  disjoint := by simp
  doneNames := List.nodup_nil
  valueNames := rfl
  values := by simp
  distinct := List.nodup_nil
  reserved := by simp

/- A module is between items when no placeholder waits. -/
theorem Draft.Good.settled {top : List OpId} (hGood : d.Good rule all done reserved top)
    (hNone : d.forward = []) : d.module.Settled where
  bounded := hGood.bounded
  operands := by
    intro o op v hOp hMember
    rcases hGood.operands o op v hOp hMember with ⟨info, hInfo, hWaits⟩
    refine ⟨info, hInfo, ?_⟩
    intro hKind
    have hWaiting := hWaits hKind
    rw [Draft.waiting, hNone] at hWaiting
    cases hWaiting

----
-- The parts of a module
----

/- The code of an item in a module, and the values of its names. -/
structure Part where
  env : String → Option ValueId
  code : Placed String .ops

variable {p : Part}

/-
  A part shows a text in a module: names stand for values that
  are defined, and different names for different values.
-/
structure Part.Of (m : Module) (p : Part) (t : Text .ops) : Prop where
  code : p.code.code = t.code []
  shows : p.code.Shows m p.env fun _ _ => False
  real : ∀ n v, p.env n = some v → ∃ info, m.values[v.index]? = some info ∧
        info.defined ≠ .placeholder
  distinct : ∀ n n' v, p.env n = some v → p.env n' = some v → n = n'

theorem Part.Of.frame (hPart : p.Of m t)
    (hFrame : m.Frame σ (fun _ => False) (fun _ => False) m') : p.Of m' t := by
  have hFixed : ∀ n v, p.env n = some v → p.env n = some (σ v) := by
    intro n v hName
    rcases hPart.real n v hName with ⟨info, hInfo, hReal⟩
    rw [(hFrame.values v info hInfo hReal).1]
    exact hName
  refine
    { code := hPart.code
      shows := ?_
      real := ?_
      distinct := hPart.distinct }
  · exact hPart.shows.frame hFrame hFixed (fun _ _ hIn => hIn)
      (fun _ _ hOpen => hOpen) (fun _ _ hOpen => hOpen)
  · intro n v hName
    rcases hPart.real n v hName with ⟨info, hInfo, hReal⟩
    rcases (hFrame.values v info hInfo hReal).2 with ⟨users, hInfo'⟩
    exact ⟨_, hInfo', hReal⟩

/- Every use in code is a value of the type that the use states. -/
theorem Placed.Shows.uses {α : Type} {env : α → Option ValueId}
    {c : Placed α l} (hShows : c.Shows m env succ) :
    ∀ x ∈ c.code.uses, ∃ v, env x.1 = some v ∧ m.typeOf v = .ok x.2 := by
  induction c generalizing succ with
  | nil =>
    intro x hMember
    cases hMember
  | op h inner rest ihInner ihRest =>
    rcases hShows with ⟨⟨op, -, hUses, -⟩, hInner, hRest⟩
    intro x hMember
    simp only [Placed.code, Forest.map, Code.uses, Forest.gather,
      List.nil_append, List.mem_append] at hMember
    rcases hMember with hHere | hIn | hLater
    · have hSome : env x.1 ∈ op.operands.map some := by
        rw [hUses.operands]
        exact List.mem_map_of_mem hHere
      rcases List.mem_map.mp hSome with ⟨v, -, hName⟩
      exact ⟨v, hName.symm, hUses.types x hHere v hName.symm⟩
    · exact ihInner hInner x hIn
    · exact ihRest hRest x hLater
  | region r inner rest ihInner ihRest =>
    rcases hShows with ⟨-, hInner, hRest⟩
    intro x hMember
    simp only [Placed.code, Forest.map, Code.uses, Forest.gather, List.mem_append] at hMember
    rcases hMember with hIn | hLater
    · exact ihInner hInner x hIn
    · exact ihRest hRest x hLater
  | block h inner rest ihInner ihRest =>
    rcases hShows with ⟨-, -, hInner, hRest⟩
    intro x hMember
    simp only [Placed.code, Forest.map, Code.uses, Forest.gather,
      List.nil_append, List.mem_append] at hMember
    rcases hMember with hIn | hLater
    · exact ihInner hInner x hIn
    · exact ihRest hRest x hLater

----
-- One item
----

namespace Assemble

/- What the assembly of an item does to a draft between items. -/
structure TopDone (t : Text .ops) (σ : ValueId → ValueId) (d d' : Draft) (p : Part) : Prop where
  wellScoped : t.WellScoped
  labels : d'.labels = none
  frame : d.module.Frame σ (fun _ => False) (fun _ => False) d'.module
  assembled : d'.module.Assembled
  settled : d'.module.Settled
  part : p.Of d'.module t
  top : d'.module.top = d.module.top ++ p.code.tops
  fresh : p.code.Fresh d.module.handles d'.module.handles []

/- Without placeholders, every known name has been defined. -/
theorem known_defined {top : List OpId} (hGood : d.Good rule all done reserved top)
    (hNone : d.forward = []) (hKnown : known? d n = some v) :
    (n, v) ∈ d.values := by
  rcases hGood.known_iff.mp hKnown with hValue | ⟨span, hWaits⟩
  · exact hValue
  · rw [hNone] at hWaits
    cases hWaits

theorem topDone_of_ops {d₁ : Draft} {c : Placed String .ops} (hOps :
      OpsDone rule t.defs [] [] d.module.top [] [] none t σ d₁ d' c)
    (hSettled : d.module.Settled) (hModule : d.module = d₁.module) (hLabels : d₁.labels = none)
    (hNone : d'.forward = []) : TopDone t σ d { d' with forward := [] } ⟨known? d', c⟩ := by
  have hGood := hOps.goes.good
  have hLast : d'.labels = none := hOps.goes.labels.1 hLabels
  have hNobody : ∀ n, ¬ d'.HasLabel n := by
    rintro n ⟨labels, label, hSome, -⟩
    rw [hLast] at hSome
    cases hSome
  have hShows : c.Shows d'.module (known? d') fun _ _ => False := by
    refine hOps.shows.frame (.refl d'.module) (fun _ _ hName => hName) ?_ (fun _ _ hOpen => hOpen)
      (fun _ _ hOpen => hOpen)
    rintro b i ⟨labels, hSome, -⟩
    rw [hLast] at hSome
    cases hSome
  refine
    { wellScoped := ⟨hGood.doneNames, ?_, ?_⟩
      labels := hLast
      frame := ?_
      assembled := hGood.assembled
      settled := hGood.settled hNone
      part := ⟨hOps.code, hShows, ?_, ?_⟩
      top := hGood.top
      fresh := hModule ▸ hOps.fresh }
  · intro x hUse
    rw [← Text.code_uses [] t, ← hOps.code] at hUse
    rcases hShows.uses x hUse with ⟨v, hName, hType⟩
    have hValue := known_defined hGood hNone hName
    rcases hGood.values _ hValue with ⟨info, hInfo, -, hDone⟩
    rcases Module.typeOf_eq_ok_iff.mp hType with ⟨info', hInfo', hSame⟩
    rw [hInfo, Option.some.injEq] at hInfo'
    rw [hInfo', hSame] at hDone
    exact hDone
  · exact hOps.labelled.mono fun n hLabel => hNobody n hLabel
  · rw [hModule]
    refine (Module.Frame.refl d₁.module).trans hOps.goes.leads.frame (fun _ hOpen => hOpen.elim)
      (fun _ _ hOpen _ => ?_) (hModule ▸ hSettled.bounded)
    cases hOpen
  · intro n v hName
    rcases hGood.values _ (known_defined hGood hNone hName) with ⟨info, hInfo, hReal, -⟩
    exact ⟨info, hInfo, hReal⟩
  · intro n n' v hName hName'
    have hValues := (List.nodup_append.mp hGood.distinct).2.1
    exact congrArg Prod.fst (List.inj_on_of_nodup_map hValues (known_defined hGood hNone hName)
      (known_defined hGood hNone hName') rfl)

theorem top_grows (records : RecordTable) (i : Item) : Grows (top records i) := by
  cases i with
  | error span => exact .pure ()
  | operation =>
    refine .bind (.modify fun _ => rfl) fun _ => ?_
    rw [operation_eq_forest]
    refine .bind (forest_grows records _ _) fun _ => ?_
    refine .get_bind fun d => .bind (.modify fun _ => rfl) ?_
    exact fun _ => .forM fun x => .error x.2.2 _

/- An item is assembled without an error, or is not well scoped. -/
theorem top_steps (records : RecordTable) (i : Item) (hAssembled : d.module.Assembled)
    (hSettled : d.module.Settled) (hLabels : d.labels = none) : Steps i.text.WellScoped (top records i) d fun _ d' =>
      ∃ σ p, TopDone i.text σ d d' p := by
  cases i with
  | error span =>
    have hText : (Item.error span).text = .nil := by rw [Item.text, Text.ofItems, Text.ofItems]
    rw [hText]
    refine .pure ⟨id, ⟨fun _ => none, .nil⟩, ?_⟩
    exact
      { wellScoped := ⟨List.nodup_nil, by simp [Text.uses, Forest.gather], trivial⟩
        labels := hLabels
        frame := .refl d.module
        assembled := hAssembled
        settled := hSettled
        part := ⟨rfl, trivial, by simp, by simp⟩
        top := by simp [Placed.tops, Forest.opRoots]
        fresh := .nil }
  | operation span h rs =>
    refine .modify_bind rfl ?_
    rw [operation_eq_forest]
    let t := (Item.operation span h rs).text
    let d₀ : Draft := { d with values := [], forward := [] }
    have hText : Assembles records t.WellScoped t.defs .ops t :=
      assembles records (fun hScoped => hScoped.once) t fun hScoped => hScoped.defined
    have hForest :=
      hText d₀ [] [] [] d.module.top [] [] none (hSettled.good hAssembled _ _) ⟨hLabels, rfl⟩ (by simp)
        fun hScoped => hScoped.labelled.mono fun _ h => h.elim
    refine .bind (Steps.mono hForest ?_) ?_
    · rintro - d₁ ⟨σ, c, hOps⟩
      refine .get_bind (.modify_bind rfl ?_)
      cases hForward : sortedByName d₁.forward with
      | nil =>
        have hNone : d₁.forward = [] := by
          rw [List.eq_nil_iff_forall_not_mem]
          intro e hMember
          rw [← mem_sortedByName, hForward] at hMember
          cases hMember
        exact .pure ⟨σ, ⟨known? d₁, c⟩, topDone_of_ops hOps hSettled rfl hLabels hNone⟩
      | cons e es =>
        have hMember : e ∈ d₁.forward := by
          rw [← mem_sortedByName, hForward]
          exact .head _
        refine .bind_error ?_ fun _ => .forM fun x => .error x.2.2 _
        intro hScoped
        have hGood := hOps.goes.good
        rcases hGood.forward e hMember with ⟨info, -, -, hDefined⟩
        apply hGood.disjoint e hMember
        exact List.mem_map_of_mem (hDefined hScoped)
    · intro _
      refine .get_bind fun d => .bind (.modify fun _ => rfl) ?_
      exact fun _ => .forM fun x => .error x.2.2 _

end Assemble

----
-- Lists of items
----

/-
  A module has been made from some texts. It has a part for each
  text, in order, and the parts have nothing in common.
-/
structure Module.Made (m : Module) (parts : List Part) (texts : List (Text .ops)) : Prop where
  settled : m.Settled
  each : List.Forall₂ (Part.Of m) parts texts
  top : m.top = parts.flatMap fun p => p.code.tops
  ops : Ranged OpId.index 0 m.handles.op (parts.flatMap fun p => p.code.opIds)
  regions : Ranged RegionId.index 0 m.handles.region (parts.flatMap fun p => p.code.regionInfos)

theorem Module.made_empty (handles : Handles) : (Module.emptyAfter handles).Made [] [] where
  settled := settled_empty handles
  each := .nil
  top := rfl
  ops := .nil
  regions := .nil

namespace Assemble

theorem TopDone.made (hDone : TopDone t σ d d' p) (hMade : d.module.Made parts texts) :
    d'.module.Made (parts ++ [p]) (texts ++ [t]) where
  settled := hDone.settled
  each := by
    refine List.rel_append (hMade.each.imp ?_) (.cons hDone.part .nil)
    exact fun q u hPart => hPart.frame hDone.frame
  top := by
    rw [hDone.top, hMade.top]
    simp
  ops := by
    rw [List.flatMap_append]
    refine hMade.ops.append ?_ (Nat.zero_le _) hDone.frame.handles.op
    simpa using hDone.fresh.ops
  regions := by
    rw [List.flatMap_append]
    refine hMade.regions.append ?_ (Nat.zero_le _) hDone.frame.handles.region
    simpa using hDone.fresh.ranged

/-
  A list of items is assembled without an error, or one of the
  items is not well scoped.
-/
theorem tops_steps (records : RecordTable) (items : List Item) (hAssembled : d.module.Assembled)
    (hMade : d.module.Made parts texts) (hLabels : d.labels = none) :
    Steps (∀ i ∈ items, i.text.WellScoped) (items.forM (top records)) d fun _ d' =>
        (∀ i ∈ items, i.text.WellScoped) ∧
        ∃ parts', d'.module.Made (parts ++ parts') (texts ++ items.map Item.text) := by
  induction items generalizing d parts texts with
  | nil => exact .pure ⟨by simp, [], by simpa using hMade⟩
  | cons i items ih =>
    rcases top_steps records i hAssembled hMade.settled hLabels with
      ⟨_, d₁, hRun, hLog, σ, p, hDone⟩ | ⟨hErrors, hBroken⟩
    · refine .bind_ok hRun hLog ?_
      rcases ih hDone.assembled (hDone.made hMade) hDone.labels with
        ⟨_, d₂, hRun₂, hLog₂, hScoped, parts', hMade₂⟩ | ⟨hErrors, hBroken⟩
      · refine .of_ok hRun₂ hLog₂ ⟨?_, p :: parts', ?_⟩
        · exact List.forall_mem_cons.mpr ⟨hDone.wellScoped, hScoped⟩
        · simpa using hMade₂
      · refine .inr ⟨hErrors, fun hAll => hBroken ?_⟩
        exact (List.forall_mem_cons.mp hAll).2
    · refine .bind (.inr ⟨hErrors, fun hAll => hBroken ?_⟩) ?_
      · exact (List.forall_mem_cons.mp hAll).1
      · exact fun _ => .forM (top_grows records)

/-
  Items are assembled without an error if and only if they are
  well scoped: then the assembly succeeds, and the module has a
  part for each of them. In a part every operand is the value
  that is defined under its name, and every successor is the
  placed block of its label. No operand is a placeholder.
-/
theorem logs_no_error_iff_wellScoped (records : RecordTable) (items : List Item) (handles : Handles)
    (log : Log) : ((stateAfter (items.forM (top records)
        { module := Module.emptyAfter handles, log })).log.errors = log.errors ↔
      ∀ i ∈ items, i.text.WellScoped) ∧
    ((∀ i ∈ items, i.text.WellScoped) ↔ ∃ d parts, items.forM (top records)
          { module := Module.emptyAfter handles, log } = .ok () d ∧ d.log = log ∧
        d.module.Made parts (items.map Item.text)) := by
  have hSteps := tops_steps records items (.of_empty handles) (Module.made_empty handles)
      (show { module := Module.emptyAfter handles, log := log : Draft }.labels = none from rfl)
  rcases hSteps with ⟨_, d, hRun, hLog, hScoped, parts, hMade⟩ | ⟨hErrors, hBroken⟩
  · refine ⟨?_, iff_of_true hScoped ⟨d, parts, hRun, hLog, hMade⟩⟩
    rw [hRun]
    exact iff_of_true (congrArg Log.errors hLog) hScoped
  · refine ⟨iff_of_false (fun hSame => ?_) hBroken, iff_of_false hBroken ?_⟩
    · exact absurd hSame.symm (Nat.ne_of_lt hErrors)
    · rintro ⟨d, parts, hRun, hLog, -⟩
      rw [hRun] at hErrors
      change log.errors < d.log.errors at hErrors
      rw [hLog] at hErrors
      exact Nat.lt_irrefl _ hErrors

end Assemble

end FortranIR
