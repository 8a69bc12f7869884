import FortranIR.Proofs.Flow.Marks

/-
  This file states where the branches of a subprogram go, and
  proves what the analysis of a single statement marks for them.

  A branch is marked where it begins. A branch into a construct
  marks everything around its target, unless it goes to the
  first statement of the construct.

  Main declarations:
    * `FunctionUnit.Contains`
    * `Analyze.action_reaches`
-/

namespace FortranIR

variable {e : Evaluation} {c target source : EvalId} {label : Label} {α : Type}
variable {v u : FunctionUnit} {act : Action} {entered : Option EvalId} {x : α} {xs : List α}
variable {f : α → Analyze Unit}

----
-- Containment
----

namespace FunctionUnit

variable {id : EvalId}

/- The construct or directive that an evaluation is directly in. -/
def outer? (u : FunctionUnit) (id : EvalId) : Option EvalId := (u.evals[id]?).bind Evaluation.outer

/- The first statement of a construct or directive. -/
def firstChild? (u : FunctionUnit) (id : EvalId) : Option EvalId :=
  (u.evals[id]?).bind fun e => e.children.head?

/- The last statement of a construct or directive. -/
def lastChild? (u : FunctionUnit) (id : EvalId) : Option EvalId :=
  (u.evals[id]?).bind fun e => e.children.getLast?

/- The construct statement that a construct begins with. -/
def Heads (u : FunctionUnit) (id c : EvalId) : Prop :=
  u.outer? id = some c ∧ u.firstChild? c = some id ∧ (u.evals[id]?).any Evaluation.isGuard = true

/- A construct or directive is around an evaluation. -/
inductive Contains (u : FunctionUnit) (c : EvalId) : EvalId → Prop where
  | direct {id : EvalId} (hOuter : u.outer? id = some c) : Contains u c id
  | inside {id mid : EvalId} (hOuter : u.outer? id = some mid) (hContains : Contains u c mid) :
      Contains u c id

/- What is around an evaluation has a smaller number. -/
def Ordered (u : FunctionUnit) : Prop := ∀ id o, u.outer? id = some o → o < id

theorem Contains.lt (hOrdered : u.Ordered) (hContains : u.Contains c id) :
    c < id := by
  induction hContains with
  | direct hOuter => exact hOrdered _ _ hOuter
  | inside hOuter _ ih => exact Nat.lt_trans ih (hOrdered _ _ hOuter)

theorem Contains.trans (hOuter : u.Contains c d) (hInner : u.Contains d id) :
    u.Contains c id := by
  induction hInner with
  | direct hDirect => exact .inside hDirect hOuter
  | inside hDirect _ ih => exact .inside hDirect ih

/- What contains an evaluation is the one around it, or more. -/
theorem Contains.cases_outer (hContains : u.Contains c id)
    (hOuter : u.outer? id = some o) : c = o ∨ u.Contains c o := by
  cases hContains with
  | direct hDirect =>
    rw [hOuter, Option.some.injEq] at hDirect
    exact .inl hDirect.symm
  | inside hDirect hRest =>
    rw [hOuter, Option.some.injEq] at hDirect
    exact .inr (hDirect ▸ hRest)

/- What is contained in something has something around it. -/
theorem Contains.outer?_ne_none (hContains : u.Contains c id) :
    u.outer? id ≠ none := by rcases hContains with hOuter | ⟨hOuter, -⟩ <;> simp [hOuter]

theorem mem_ancestorsWithin_iff (hOrdered : u.Ordered)
    (hFuel : id ≤ fuel) : c ∈ u.ancestorsWithin fuel id ↔ u.Contains c id := by
  induction fuel generalizing id with
  | zero =>
    refine iff_of_false (by simp [ancestorsWithin]) ?_
    intro hContains
    exact absurd (hContains.lt hOrdered) (Nat.not_lt_of_le (Nat.le_trans hFuel (Nat.zero_le _)))
  | succ fuel ih =>
    unfold ancestorsWithin
    cases hOuter : (u.evals[id]?).bind Evaluation.outer with
    | none =>
      refine iff_of_false (by simp) ?_
      exact fun hContains => hContains.outer?_ne_none hOuter
    | some o =>
      have hBelow : o < id := hOrdered id o hOuter
      simp only [List.mem_cons]
      rw [ih (Nat.le_of_lt_succ (Nat.lt_of_lt_of_le hBelow hFuel))]
      constructor
      · rintro (rfl | hRest)
        · exact .direct hOuter
        · exact .inside hOuter hRest
      · exact fun hContains => hContains.cases_outer hOuter

/- The listed ancestors are what an evaluation is in. -/
theorem mem_ancestors_iff (hOrdered : u.Ordered) :
    c ∈ u.ancestors id ↔ u.Contains c id := mem_ancestorsWithin_iff hOrdered .refl

section

variable (hGrows : u.Grows v)
include hGrows

theorem Grows.outer?_eq (id : EvalId) : v.outer? id = u.outer? id :=
  hGrows.alike.bind_eq (fun _ => rfl) id

theorem Grows.firstChild?_eq (id : EvalId) : v.firstChild? id = u.firstChild? id :=
  hGrows.alike.bind_eq (fun _ => rfl) id

theorem Grows.lastChild?_eq (id : EvalId) : v.lastChild? id = u.lastChild? id :=
  hGrows.alike.bind_eq (fun _ => rfl) id

theorem Grows.contains_iff : v.Contains c id ↔ u.Contains c id := by
  constructor
  · intro hContains
    induction hContains with
    | direct hOuter => exact .direct (hGrows.outer?_eq _ ▸ hOuter)
    | inside hOuter _ ih => exact .inside (hGrows.outer?_eq _ ▸ hOuter) ih
  · intro hContains
    induction hContains with
    | direct hOuter => exact .direct ((hGrows.outer?_eq _).trans hOuter)
    | inside hOuter _ ih => exact .inside ((hGrows.outer?_eq _).trans hOuter) ih

theorem Grows.ordered (hOrdered : u.Ordered) : v.Ordered :=
  fun id o hOuter => hOrdered id o (hGrows.outer?_eq id ▸ hOuter)

end

----
-- Branches
----

end FunctionUnit

/- The construct of a name, or else the innermost loop. -/
def Scopes.find? (s : Scopes) : Option String → Option EvalId
  | some n => s.names.lookup n
  | none => s.loops.head?

namespace FunctionUnit

/-
  A statement may branch to another one: to one of its labels,
  to the end of the loop that it cycles, or to the exit of the
  construct that it leaves.
-/
inductive BranchesTo (u : FunctionUnit) (source target : EvalId) : Prop where
  | label {e : Evaluation} {a : Action} {label : Label} (hEval : u.evals[source]? = some e)
      (hNode : e.node = .action a) (hLabel : label ∈ a.branchLabels)
      (hTarget : u.labels.find? label = some target)
  | cycle {e : Evaluation} {name : Option String} {c : EvalId} (hEval : u.evals[source]? = some e)
      (hNode : e.node = .action (.cycle name)) (hLoop : (u.scopesBefore source).find? name = some c)
      (hTarget : u.lastChild? c = some target)
  | exit {e : Evaluation} {name : Option String} {c : EvalId} (hEval : u.evals[source]? = some e)
      (hNode : e.node = .action (.exit name)) (hLoop : (u.scopesBefore source).find? name = some c)
      (hTarget : u.exit? c = some target)

/- All that a statement may branch to. -/
def targets (u : FunctionUnit) (source : EvalId) : List EvalId :=
  match (u.evals[source]?).map Evaluation.node with
  | some (.action a) =>
    let referred := (u.scopesBefore source).find?
    match a with
    | .cycle name => ((referred name).bind u.lastChild?).toList
    | .exit name => ((referred name).bind u.exit?).toList
    | _ => a.branchLabels.filterMap u.labels.find?
  | _ => []

theorem branchesTo_iff {source : EvalId} :
    u.BranchesTo source target ↔ target ∈ u.targets source := by
  constructor
  · rintro (⟨hEval, hNode, hLabel, hTarget⟩ |
      ⟨hEval, hNode, hLoop, hTarget⟩ | ⟨hEval, hNode, hLoop, hTarget⟩)
    · rename_i e a label
      have hMember : target ∈ a.branchLabels.filterMap u.labels.find? :=
        List.mem_filterMap.mpr ⟨label, hLabel, hTarget⟩
      rw [targets, hEval, Option.map_some, hNode]
      cases a with
      | cycle | exit => simp [Action.branchLabels] at hLabel
      | _ => exact hMember
    all_goals
      rw [targets, hEval, Option.map_some, hNode]
      simp [hLoop, hTarget]
  · intro hMember
    unfold targets at hMember
    split at hMember
    · rename_i a hSome
      rcases Option.map_eq_some_iff.mp hSome with ⟨e, hEval, hNode⟩
      split at hMember
      · rw [Option.mem_toList, Option.bind_eq_some_iff] at hMember
        rcases hMember with ⟨c, hLoop, hTarget⟩
        exact .cycle hEval hNode hLoop hTarget
      · rw [Option.mem_toList, Option.bind_eq_some_iff] at hMember
        rcases hMember with ⟨c, hLoop, hTarget⟩
        exact .exit hEval hNode hLoop hTarget
      · rcases List.mem_filterMap.mp hMember with ⟨label, hLabel, hTarget⟩
        exact .label hEval hNode hLabel hTarget
    · cases hMember

instance (u : FunctionUnit) (source target : EvalId) : Decidable (u.BranchesTo source target) :=
  decidable_of_iff _ branchesTo_iff.symm

/-
  Whatever is around a target, but not around the source of the
  branch, is marked, unless the target is its first statement.
-/
def Enters (u : FunctionUnit) (source target : EvalId) : Prop :=
  ∀ c, u.Contains c target → ¬ u.Contains c source →
    u.unstructured c = true ∨ u.firstChild? c = some target

/- Where an action goes that refers to a construct. -/
def jumpTarget? (u : FunctionUnit) (c : EvalId) : Action → Option EvalId
  | .cycle _ => u.lastChild? c
  | .exit _ => u.exit? c
  | _ => none

/- An evaluation, or something that contains it. -/
def Around (u : FunctionUnit) (c id : EvalId) : Prop := c = id ∨ u.Contains c id

/- A branch is marked at its source and around its target. -/
def Reaches (u : FunctionUnit) (source target : EvalId) : Prop :=
  u.unstructured source = true ∧ u.Enters source target

theorem Reaches.grows (hReaches : u.Reaches source target) (hGrows : u.Grows v) :
    v.Reaches source target := by
  refine ⟨hGrows.flags _ hReaches.1, ?_⟩
  intro c hTarget hSource
  rw [hGrows.contains_iff] at hTarget hSource
  rcases hReaches.2 c hTarget hSource with hFlag | hFirst
  · exact .inl (hGrows.flags c hFlag)
  · exact .inr ((hGrows.firstChild?_eq c).trans hFirst)

end FunctionUnit

----
-- Single branches
----

namespace Analyze

open FunctionUnit

variable {a a' : Analysis}

theorem unstructure_sets {id : EvalId} (hEval : a.unit.evals[id]? = some e)
    (hRun : unstructure id a = .ok () a') : a'.unit.unstructured id = true := by
  cases hRun
  unfold FunctionUnit.unstructured
  simp [hEval]

/- Each step of a sequence comes from and leads to a grown unit. -/
theorem forM_eq_ok (hNotes : ∀ x ∈ xs, Notes id (f x)) (hRun : xs.forM f a = .ok () a')
    (hMember : x ∈ xs) :
    ∃ a₁ a₂, a.unit.Grows a₁.unit ∧ f x a₁ = .ok () a₂ ∧ a₂.unit.Grows a'.unit := by
  induction xs generalizing a with
  | nil => simp at hMember
  | cons y ys ih =>
    rcases bind_eq_ok hRun with ⟨_, a₁, hFirst, hRest⟩
    have hLater : a₁.unit.Grows a'.unit :=
      Notes.grows (.forM fun z hIn => hNotes z (.tail y hIn)) hRest
    rcases List.mem_cons.mp hMember with rfl | hIn
    · exact ⟨a, a₁, .refl _, hFirst, hLater⟩
    · rcases ih (fun z hIn => hNotes z (.tail y hIn))
        hRest hIn with ⟨a₂, a₃, hBefore, hStep, hAfter⟩
      have hGrows := (hNotes y (.head _)).grows hFirst
      exact ⟨a₂, a₃, hGrows.trans hBefore, hStep, hAfter⟩

/- The construct that a branch enters, by the place of its target. -/
theorem entered?_eq_ok_iff : entered? u target = .ok entered ↔ ∃ e, u.evals[target]? = some e ∧
      match u.outer? target with
      | none => entered = none
      | some o => ∃ c, u.evals[o]? = some c ∧ (u.Heads target o ∧ entered = u.outer? o ∨
          ¬ u.Heads target o ∧ entered = some o) := by
  unfold entered?
  rw [bind_eq_ok_iff]
  refine exists_congr fun e => ?_
  rw [eval_eq_ok_iff]
  refine and_congr_right fun hEval => ?_
  have hAt : u.outer? target = e.outer := by rw [outer?, hEval, Option.bind_some]
  rw [hAt]
  cases hOuter : e.outer with
  | none => simp [pure, Except.pure, eq_comm]
  | some o =>
    rw [bind_eq_ok_iff]
    refine exists_congr fun c => ?_
    rw [eval_eq_ok_iff]
    refine and_congr_right fun hConstruct => ?_
    have hHeads : u.Heads target o ↔
          (e.isGuard && decide (c.children.head? = some target)) = true := by
      simp [Heads, hAt, hOuter, firstChild?, hEval, hConstruct, and_comm]
    rw [outer?]
    split
    · simp [*, pure, Except.pure, eq_comm]
    · simp [*, pure, Except.pure, eq_comm]

/- If a branch enters nothing new, only heads are left to exempt. -/
theorem enters_of_entered (hRun : entered? u target = .ok entered)
    (hInside : ∀ k, entered = some k → u.Contains k source) : u.Enters source target := by
  intro c hTarget hSource
  -- whatever is around the entered construct is around the source
  have hOut : ∀ k, entered = some k → ¬ (c = k ∨ u.Contains c k) := by
    rintro k hEntered (rfl | hAround)
    · exact hSource (hInside c hEntered)
    · exact hSource (hAround.trans (hInside k hEntered))
  rcases entered?_eq_ok_iff.mp hRun with ⟨e, -, hCase⟩
  split at hCase
  · exact absurd ‹_› hTarget.outer?_ne_none
  · rename_i o hOuter
    rcases hCase with ⟨-, -, ⟨hHeads, hEntered⟩ | ⟨-, hEntered⟩⟩
    · rcases hTarget.cases_outer hOuter with rfl | hAround
      · exact .inr hHeads.2.1
      · cases hNext : u.outer? o with
        | none => exact absurd hNext hAround.outer?_ne_none
        | some k => exact absurd (hAround.cases_outer hNext) (hOut k (hEntered.trans hNext))
    · exact absurd (hTarget.cases_outer hOuter) (hOut o hEntered)

/- One evaluation is marked, and gets a control successor. -/
def Licence.at (id : EvalId) : Licence := ⟨(· = id), fun _ => False, (· = id), fun _ => False⟩

/- A sequence of marks sets them all. -/
theorem forM_unstructure_marks {ids : List EvalId}
    (hExists : ∀ k ∈ ids, ∃ e, a.unit.evals[k]? = some e)
    (hRun : ids.forM unstructure a = .ok () a') {k : EvalId} (hMember : k ∈ ids) :
    a'.unit.unstructured k = true := by
  rcases forM_eq_ok (fun x _ => unstructure_marks trivial) hRun hMember with
    ⟨a₁, a₂, hBefore, hStep, hAfter⟩
  rcases hExists k hMember with ⟨e, hEval⟩
  rcases hBefore.getElem? hEval with ⟨e', hEval', -⟩
  exact hAfter.flags k (unstructure_sets hEval' hStep)

/-
  A branch marks its source. If it enters something that is not
  around the source, it marks everything around the target.
-/
theorem branchTo_eq_ok (hOrdered : a.unit.Ordered) (hRun : branchTo source target a = .ok () a') :
    ∃ b entered, Adds (Licence.at source) a.unit b.unit ∧
      ((a.unit.evals[source]?).isSome = true → b.unit.unstructured source = true) ∧
      entered? b.unit target = .ok entered ∧
      ((∀ k, entered = some k → b.unit.Contains k source) ∧ a' = b ∨
        ∃ k, entered = some k ∧ ¬ b.unit.Contains k source ∧
          Adds { Licence.none with own := (b.unit.Around · target) } b.unit a'.unit ∧
          ∀ c, b.unit.Around c target → a'.unit.unstructured c = true) := by
  rcases bind_eq_ok hRun with ⟨_, a₁, hMark, hRest₁⟩
  rcases bind_eq_ok hRest₁ with ⟨_, a₂, hControl, hRest₂⟩
  rcases bind_eq_ok hRest₂ with ⟨_, b, hBlock, hRest₃⟩
  rcases bind_eq_ok hRest₃ with ⟨_, _, hGet, hRest₄⟩
  cases hGet
  rcases look_bind_eq_ok hRest₄ with ⟨entered, hEntered, hEnd⟩
  have hFirst : Adds (Licence.at source) a.unit a₁.unit := (unstructure_marks rfl a () a₁ hMark).1
  have hLater : Adds (Licence.at source) a₁.unit b.unit :=
    (setFirstControl_marks rfl target a₁ () a₂ hControl).1.trans
      (beginBlock_marks target a₂ () b hBlock).1
  have hOrdered' := (hFirst.trans hLater).grows.ordered hOrdered
  refine ⟨b, entered, hFirst.trans hLater, fun hSome => ?_, hEntered, ?_⟩
  · rcases Option.isSome_iff_exists.mp hSome with ⟨e, hEval⟩
    exact hLater.grows.flags source (unstructure_sets hEval hMark)
  cases entered with
  | none =>
    cases hEnd
    exact .inl ⟨nofun, rfl⟩
  | some k =>
    have hListed : (!(b.unit.ancestors source).contains k) = true ↔ ¬ b.unit.Contains k source := by
      simp [mem_ancestors_iff hOrdered']
    simp only [] at hEnd
    split at hEnd
    · rename_i hOutside
      have hMember : ∀ c, c ∈ target :: b.unit.ancestors target ↔ b.unit.Around c target :=
        fun c => by rw [List.mem_cons, mem_ancestors_iff hOrdered', Around]
      refine .inr ⟨k, rfl, hListed.mp hOutside, ?_, fun c hIn => ?_⟩
      · exact (Marking.forM (fun c hIn => unstructure_marks ((hMember c).mp hIn)) b () a' hEnd).1
      · -- everything around the target is there, and gets its mark
        refine forM_unstructure_marks (fun d hIn => ?_) hEnd ((hMember c).mpr hIn)
        rcases entered?_eq_ok_iff.mp hEntered with ⟨e, hEval, -⟩
        rcases (hMember d).mp hIn with rfl | hAround
        · exact ⟨e, hEval⟩
        · exact ⟨_, List.getElem?_eq_getElem (Nat.lt_trans (hAround.lt hOrdered')
            (List.getElem?_eq_some_iff.mp hEval).1)⟩
    · rename_i hInside
      rw [hListed, not_not] at hInside
      cases hEnd
      refine .inl ⟨?_, rfl⟩
      rintro _ ⟨⟩
      exact hInside

/- The first branch of a statement gives it a control successor. -/
theorem branchTo_control (hSource : a.unit.evals[source]? = some e)
    (hNone : a.unit.control? source = none) (hRun : branchTo source target a = .ok () a') :
    a'.unit.control? source = some target := by
  rcases bind_eq_ok hRun with ⟨_, a₁, hMark, hRest⟩
  rcases bind_eq_ok hRest with ⟨_, a₂, hSet, hEnd⟩
  have hFirst : Adds { steered := fun _ => False } a.unit a₁.unit :=
    (unstructure_marks trivial a () a₁ hMark).1
  have hLast : Adds { steered := fun _ => False } a₂.unit a'.unit :=
    (target_marks (fun _ => trivial) source target a₂ () a' hEnd).1
  have hBefore := (hFirst.controls source fun hNone => hNone).trans hNone
  rcases hFirst.grows.getElem? hSource with ⟨e₁, hEval₁, -⟩
  rw [hLast.controls source fun hNone => hNone]
  cases hSet
  rw [control?, hEval₁, Option.bind_some] at hBefore
  simp [control?, hEval₁, hBefore]

----
-- Actions
----

/- The construct that a statement refers to is in its scopes. -/
theorem loopOf_eq_ok
    (hRun : loopOf name statement a = .ok c a') : a.scopes.find? name = some c ∧ a' = a := by
  rcases bind_eq_ok hRun with ⟨_, _, hGet, hLook⟩
  cases hGet
  rcases look_eq_ok hLook with ⟨hFound, hSame⟩
  refine ⟨?_, hSame⟩
  rw [orElse_eq_ok_iff] at hFound
  cases name <;> exact hFound

/- A statement that refers to a construct branches once. -/
theorem jump_eq_ok (hRefers : act.reference? = some name)
    (hRun : action source act a = .ok () a') : ∃ c t, a.scopes.find? name = some c ∧
      a.unit.jumpTarget? c act = some t ∧ branchTo source t a = .ok () a' := by
  cases act with
  | cycle n =>
    cases hRefers
    rcases bind_eq_ok hRun with ⟨c, _, hRefer, hRest⟩
    rcases loopOf_eq_ok hRefer with ⟨hFound, rfl⟩
    rcases look_bind_eq_ok hRest with ⟨loop, hLoop, hLater⟩
    rcases look_bind_eq_ok hLater with ⟨last, hLast, hStep⟩
    rw [eval_eq_ok_iff] at hLoop
    rw [orElse_eq_ok_iff] at hLast
    exact ⟨c, last, hFound, by rw [jumpTarget?, lastChild?, hLoop, Option.bind_some, hLast], hStep⟩
  | exit n =>
    cases hRefers
    rcases bind_eq_ok hRun with ⟨c, _, hRefer, hRest⟩
    rcases loopOf_eq_ok hRefer with ⟨hFound, rfl⟩
    rcases look_bind_eq_ok hRest with ⟨x, hExit, hStep⟩
    exact ⟨c, x, hFound, exitOf_eq_ok_iff.mp hExit, hStep⟩
  | _ => cases hRefers

section

variable (hOrdered : a.unit.Ordered) (hSource : a.unit.evals[source]? = some e)

include hOrdered hSource

theorem branchTo_reaches
    (hRun : branchTo source target a = .ok () a') : a'.unit.Reaches source target := by
  rcases branchTo_eq_ok hOrdered hRun with ⟨b, entered, -, hFlag, hEntered, hEnd⟩
  rcases hEnd with ⟨hInside, rfl⟩ | ⟨k, -, -, hAdds, hAll⟩
  · exact ⟨hFlag (by rw [hSource]; rfl), enters_of_entered hEntered hInside⟩
  · refine ⟨hAdds.grows.flags source (hFlag (by rw [hSource]; rfl)), fun c hTarget _ => ?_⟩
    exact .inl (hAll c (.inr (hAdds.grows.contains_iff.mp hTarget)))

section

variable (hTarget : a.unit.labels.find? label = some target)

include hTarget

theorem branchToLabel_reaches
    (hRun : branchToLabel source label a = .ok () a') : a'.unit.Reaches source target := by
  rcases look_bind_eq_ok hRun with ⟨found, hFound, hBranch⟩
  rw [hTarget] at hFound
  cases hFound
  exact branchTo_reaches hOrdered hSource hBranch

/- A sequence of steps, one of which branches to a label. -/
theorem forM_reaches (hNotes : ∀ x ∈ xs, Notes id (f x)) (hMember : x ∈ xs)
    (hStep : f x = branchToLabel source label)
    (hRun : xs.forM f a = .ok () a') : a'.unit.Reaches source target := by
  rcases forM_eq_ok hNotes hRun hMember with ⟨a₁, a₂, hBefore, hBranch, hAfter⟩
  rw [hStep] at hBranch
  rcases hBefore.getElem? hSource with ⟨e', hSource', -⟩
  rw [← hBefore.alike.labels] at hTarget
  exact (branchToLabel_reaches (hBefore.ordered hOrdered) hSource' hTarget hBranch).grows hAfter

/- A branch to one of the labels of an action. -/
theorem action_reaches_label (hLabel : label ∈ act.branchLabels)
    (hRun : action source act a = .ok () a') : a'.unit.Reaches source target := by
  have hLabels : ∀ labels : List Label, ∀ a₁, label ∈ labels →
        labels.forM (branchToLabel source) a = .ok () a₁ → a₁.unit.Reaches source target :=
    fun labels a₁ hMember hAll =>
      forM_reaches hOrdered hSource hTarget
        (fun l _ => branchToLabel_marks (fun _ => trivial) trivial l) hMember rfl hAll
  cases act with
  | call returns => exact hLabels returns a' hLabel hRun
  | goto l =>
    rw [Action.branchLabels, List.mem_singleton] at hLabel
    subst hLabel
    exact branchToLabel_reaches hOrdered hSource hTarget hRun
  | computedGoto labels => exact hLabels labels a' hLabel hRun
  | arithmeticIf category labels =>
    rcases bind_eq_ok hRun with ⟨_, a₁, hAll, hLast⟩
    refine (hLabels labels a₁ hLabel hAll).grows ?_
    have hNotes : Notes id (if category = .real then
          mark source fun e => { e with localBlocks := e.localBlocks + 1 }
          else Pure.pure () : Analyze Unit) :=
      .ite (count_marks trivial _) (.pure ())
    exact hNotes.grows hLast
  | io =>
    rcases bind_eq_ok hRun with ⟨_, a₁, hFormat, hSpecs⟩
    have hGrows := Notes.grows (.forM fun f _ => format_marks trivial f) hFormat
    rcases List.mem_filterMap.mp hLabel with ⟨spec, hMember, hSpec⟩
    have hStep : ioSpec source spec = branchToLabel source label := by
      cases spec <;> cases hSpec <;> rfl
    rcases hGrows.getElem? hSource with ⟨e', hSource', -⟩
    rw [← hGrows.alike.labels] at hTarget
    exact forM_reaches (hGrows.ordered hOrdered) hSource' hTarget
      (fun s _ => ioSpec_marks (fun _ => trivial) s fun _ => trivial) hMember hStep hSpecs
  | _ => simp [Action.branchLabels] at hLabel

end

/-
  An action marks all its branches, also those whose targets are
  read in the unit that comes out in the end.
-/
theorem action_reaches (hScopes : a.scopes = a.unit.scopesBefore source)
    (hNode : e.node = .action act)
    (hRun : action source act a = .ok () a') (hGrows : a'.unit.Grows v)
    (hBranch : v.BranchesTo source target) : a'.unit.Reaches source target := by
  have hWhole : a.unit.Grows v := ((action_notes source act).grows hRun).trans hGrows
  rcases hWhole.getElem? hSource with ⟨e', hEval', hFixed⟩
  have hSame : ∀ f, v.evals[source]? = some f → f.node = e.node := by
    intro f hFound
    rw [hEval', Option.some.injEq] at hFound
    rw [← hFound]
    exact congrArg Prod.fst hFixed
  rcases hBranch with ⟨hEval, hAction, hLabel, hTarget⟩ | ⟨hEval, hAction, hLoop, hTarget⟩ |
    ⟨hEval, hAction, hLoop, hTarget⟩
  · rw [hSame _ hEval, hNode] at hAction
    cases hAction
    rw [hWhole.alike.labels] at hTarget
    exact action_reaches_label hOrdered hSource hTarget hLabel hRun
  · rw [hSame _ hEval, hNode] at hAction
    cases hAction
    rw [hWhole.scopesBefore_eq, ← hScopes] at hLoop
    rcases jump_eq_ok rfl hRun with ⟨c', t, hFound, hAim, hStep⟩
    cases hLoop.symm.trans hFound
    -- the children of the loop are still the same
    rw [hWhole.lastChild?_eq] at hTarget
    cases hTarget.symm.trans hAim
    exact branchTo_reaches hOrdered hSource hStep
  · rw [hSame _ hEval, hNode] at hAction
    cases hAction
    rw [hWhole.scopesBefore_eq, ← hScopes] at hLoop
    rcases jump_eq_ok rfl hRun with ⟨c', t, hFound, hAim, hStep⟩
    cases hLoop.symm.trans hFound
    -- the exit was known, and it is never changed
    cases hTarget.symm.trans (hWhole.exits _ t hAim)
    exact branchTo_reaches hOrdered hSource hStep

end

end Analyze

end FortranIR
