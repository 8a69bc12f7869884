import FortranIR.Proofs.Flow.Unstructured

/-
  This file states all that a step of the analysis of branches
  can mark.

  A step at an evaluation marks the evaluation itself, or, for a
  branch into a construct, the target with everything around it.
  Blocks are only added, and extra blocks are counted at actions
  and at the ends of loops alone.

  Main declarations:
    * `FunctionUnit.Crosses`
    * `Analyze.finish_spreads`
-/

namespace FortranIR

open Evaluation

variable {source id : EvalId} {options : FlowOptions}
variable {u v : FunctionUnit} {p p' : Licence}
variable {parent : Option EvalId}

----
-- Marks
----

namespace FunctionUnit

/-
  A branch goes into something that is not around its source. A
  branch to the head of a construct does not go into it.
-/
def Crosses (u : FunctionUnit) (source target : EvalId) : Prop :=
  ∃ c, u.Contains c target ∧ ¬ u.Contains c source ∧ ¬ u.Heads target c

section

variable (hGrows : u.Grows v)
include hGrows

theorem Grows.guardAt?_eq (id : EvalId) : v.guardAt? id = u.guardAt? id :=
  hGrows.alike.bind_eq (fun _ => rfl) id

theorem Grows.heads_iff {id : EvalId} : v.Heads id c ↔ u.Heads id c := by
  have hGuard : ∀ w : FunctionUnit, (w.evals[id]?).any isGuard =
        (w.guardAt? id).isSome := by
    intro w
    unfold guardAt?
    cases w.evals[id]? <;> rfl
  rw [Heads, Heads, hGrows.outer?_eq, hGrows.firstChild?_eq, hGuard, hGuard, hGrows.guardAt?_eq]

theorem Grows.crosses_iff {source : EvalId} :
    v.Crosses source target ↔ u.Crosses source target := by
  simp only [Crosses, hGrows.contains_iff, hGrows.heads_iff]

end

/-
  What steps mark between two units. All that is newly marked is
  among the evaluations that the steps are about, or around a
  target whose surroundings are then marked as a whole.
-/
structure Spreads (u : FunctionUnit) (p : Licence) (v w : FunctionUnit) : Prop where
  grows : v.Grows w
  blocks : ∀ k, v.beginsBlock k = true → w.beginsBlock k = true
  counts : ∀ k, ¬ p.counted k → w.extraBlocks? k = v.extraBlocks? k
  flags : ∀ k, w.unstructured k = true → v.unstructured k = true ∨ p.own k ∨
        ∃ t, p.targets t ∧ u.Around k t ∧ ∀ c, u.Around c t → w.unstructured c = true

theorem Spreads.refl (v : FunctionUnit) : Spreads u p v v where
  grows := .refl v
  blocks _ hBlock := hBlock
  counts _ _ := rfl
  flags _ hFlag := .inl hFlag

theorem Spreads.trans (hFirst : Spreads u p v w) (hSecond : Spreads u p w x) : Spreads u p v x where
  grows := hFirst.grows.trans hSecond.grows
  blocks k hBlock := hSecond.blocks k (hFirst.blocks k hBlock)
  counts k hOut := (hSecond.counts k hOut).trans (hFirst.counts k hOut)
  flags k hFlag := by
    rcases hSecond.flags k hFlag with hBefore | hOwn | hTarget
    · rcases hFirst.flags k hBefore with hStart | hOwn | hTarget
      · exact .inl hStart
      · exact .inr (.inl hOwn)
      · rcases hTarget with ⟨t, hIs, hAround, hAll⟩
        refine .inr (.inr ⟨t, hIs, hAround, fun c hIn => ?_⟩)
        exact hSecond.grows.flags c (hAll c hIn)
    · exact .inr (.inl hOwn)
    · exact .inr (.inr hTarget)

theorem Adds.spreads (hAdds : Adds p v w) : Spreads u p v w where
  grows := hAdds.grows
  blocks := hAdds.blocks
  counts := hAdds.counts
  flags k hFlag := (hAdds.flags k hFlag).imp_right .inl

/- Steps that are said to mark more. -/
theorem Spreads.weaken (hSpreads : Spreads u p v w) (hOwn : ∀ k, p.own k → p'.own k)
    (hTargets : ∀ t, p.targets t → p'.targets t) (hCounted : ∀ k, p.counted k → p'.counted k) :
    Spreads u p' v w where
  grows := hSpreads.grows
  blocks := hSpreads.blocks
  counts k hOut := hSpreads.counts k fun hIn => hOut (hCounted k hIn)
  flags k hFlag := by
    rcases hSpreads.flags k hFlag with hBefore | hIn | ⟨t, hIs, hRest⟩
    · exact .inl hBefore
    · exact .inr (.inl (hOwn k hIn))
    · exact .inr (.inr ⟨t, hTargets t hIs, hRest⟩)

end FunctionUnit

/-
  The evaluation may be marked while it is visited. Construct
  statements are not, but for the beginnings of loops.
-/
def Evaluation.isOpen (e : Evaluation) : Bool := match e.node with
  | .guard g =>
    match g.kind with
    | .do _ => true
    | _ => false
  | _ => true

----
-- Steps
----

namespace Analyze

open FunctionUnit

variable {α β : Type} {a : Analysis} {x : Analyze α}

/- A step that marks no more than is said, in all that comes later. -/
def Spreading (u : FunctionUnit) (p : Licence) (x : Analyze α) : Prop :=
  ∀ a r a', u.Grows a.unit → x a = .ok r a' → Spreads u p a.unit a'.unit

theorem Spreading.pure (r : α) : Spreading u p (pure r : Analyze α) := by
  intro a r a' _ hRun
  cases hRun
  exact .refl _

theorem Spreading.bind (hFirst : Spreading u p x) (hRest : ∀ r, Spreading u p (y r)) :
    Spreading u p (x >>= y) := by
  intro a r a' hGrows hRun
  rcases bind_eq_ok hRun with ⟨s, a₁, hX, hY⟩
  have hStep := hFirst a s a₁ hGrows hX
  exact hStep.trans (hRest s a₁ r a' (hGrows.trans hStep.grows) hY)

theorem Spreading.forM {xs : List α} {f : α → Analyze Unit}
    (hEach : ∀ x ∈ xs, Spreading u p (f x)) :
    Spreading u p (xs.forM f) :=
  forM_of_each (.pure ()) (fun _ _ hX hY => hX.bind fun _ => hY) hEach

theorem Spreading.ite {cond : Prop} [Decidable cond] {y : Analyze α}
    (hThen : Spreading u p x) (hElse : Spreading u p y) :
    Spreading u p (if cond then x else y) := by
  split
  · exact hThen
  · exact hElse

/- A step that makes no branch. -/
theorem Marking.spreads (hMarks : Marking p f x) : Spreading u p x :=
  fun a r a' _ hRun => (hMarks a r a' hRun).1.spreads

/- A step that makes no branch, but gives control successors. -/
theorem Marking.steers
    (hMarks : Marking { p with steered := fun _ => True } f x) : Spreading u p x :=
  fun a r a' hGrows hRun => (hMarks.spreads a r a' hGrows hRun).weaken (fun _ hIn => hIn)
    (fun _ hIn => hIn) fun _ hIn => hIn

----
-- Branches
----

/- A branch that enters something new crosses its border. -/
theorem crosses_of_entered (hOrdered : u.Ordered)
    (hRun : entered? u target = .ok (some entered)) (hOutside : ¬ u.Contains entered source) :
    u.Crosses source target := by
  rcases entered?_eq_ok_iff.mp hRun with ⟨-, -, hCase⟩
  split at hCase
  · cases hCase
  · rename_i o hAt
    rcases hCase with ⟨-, -, ⟨-, hAround⟩ | ⟨hHead, hSame⟩⟩
    · -- the target is a head, and the branch enters what is around
      refine ⟨entered, .inside hAt (.direct hAround.symm), hOutside, ?_⟩
      rintro ⟨hSame, -⟩
      rw [hAt, Option.some.injEq] at hSame
      exact absurd (hOrdered o entered hAround.symm) (by rw [hSame]; exact Nat.lt_irrefl _)
    · cases hSame
      exact ⟨entered, .direct hAt, hOutside, hHead⟩

theorem branchTo_spreads (hOrdered : u.Ordered) (hOwn : p.own source)
    (hTarget : u.Crosses source target → p.targets target) :
    Spreading u p (branchTo source target) := by
  intro a r a' hGrows hRun
  rcases branchTo_eq_ok (hGrows.ordered hOrdered) hRun with ⟨b, entered, hAdds, -, hEntered, hEnd⟩
  have hFirst : Spreads u p a.unit b.unit :=
    hAdds.spreads.weaken (fun _ hSame => hSame ▸ hOwn) (fun _ => False.elim) fun _ => False.elim
  rcases hEnd with ⟨-, rfl⟩ | ⟨k, rfl, hOutside, hMarks, hAll⟩
  · exact hFirst
  have hGrows' := hGrows.trans hFirst.grows
  have hCrosses : u.Crosses source target := hGrows'.crosses_iff.mp
    (crosses_of_entered (hGrows'.ordered hOrdered) hEntered hOutside)
  have hAround : ∀ c, b.unit.Around c target ↔ u.Around c target :=
    fun c => by rw [Around, Around, hGrows'.contains_iff]
  simp only [hAround] at hMarks hAll
  refine hFirst.trans ⟨hMarks.grows, hMarks.blocks, fun k _ => hMarks.counts k id, ?_⟩
  exact fun c hFlag => (hMarks.flags c hFlag).imp_right fun hIn =>
    .inr ⟨target, hTarget hCrosses, hIn, hAll⟩

theorem branchToLabel_spreads (hOrdered : u.Ordered) {label : Label} (hOwn : p.own source)
    (hTargets : ∀ t, u.labels.find? label = some t → u.Crosses source t → p.targets t) :
    Spreading u p (branchToLabel source label) := by
  intro a r a' hGrows hRun
  rcases look_bind_eq_ok hRun with ⟨t, hFound, hBranch⟩
  rw [orElse_eq_ok_iff, hGrows.alike.labels] at hFound
  exact branchTo_spreads hOrdered hOwn (hTargets t hFound) _ r a' hGrows hBranch

----
-- Actions
----

theorem ioSpec_spreads (hOrdered : u.Ordered) (hOwn : p.own id)
    (hTargets : ∀ label t, spec.branchLabel? = some label →
      u.labels.find? label = some t → u.Crosses id t → p.targets t) :
    Spreading u p (ioSpec id spec) := by
  have hLabel : ∀ label, spec.branchLabel? = some label →
        Spreading u p (branchToLabel id label) :=
    fun label hSome => branchToLabel_spreads hOrdered hOwn fun t => hTargets label t hSome
  cases spec with
  | err label | eor label | finish label => exact hLabel label rfl
  | format f => exact (format_marks hOwn f).spreads
  | other => exact .pure ()

/- The branches of an action that go into something. -/
def Crossing (u : FunctionUnit) (source target : EvalId) : Prop :=
  u.BranchesTo source target ∧ u.Crosses source target

/-
  An action marks itself and what its branches go into. Only the
  action itself may get extra blocks.
-/
theorem action_spreads (hOwn : p.own id) (hCounted : p.counted id)
    (hTargets : ∀ t, Crossing a.unit id t → p.targets t) (hOrdered : a.unit.Ordered)
    (hScopes : a.scopes = a.unit.scopesBefore id) (hEval : a.unit.evals[id]? = some e)
    (hNode : e.node = .action act) (hRun : action id act a = .ok () a') :
    Spreads a.unit p a.unit a'.unit := by
  have hLabel : ∀ label ∈ act.branchLabels, ∀ t, a.unit.labels.find? label = some t →
        a.unit.Crosses id t → p.targets t :=
    fun label hIn t hFound hCrosses => hTargets t ⟨.label hEval hNode hIn hFound, hCrosses⟩
  have hLabels : ∀ labels : List Label, (∀ l ∈ labels, l ∈ act.branchLabels) →
        Spreading a.unit p (labels.forM (branchToLabel id)) :=
    fun labels hAll => .forM fun label hIn =>
      branchToLabel_spreads hOrdered hOwn (hLabel label (hAll label hIn))
  -- a branch to a construct that the scopes know
  have hTo : ∀ target, a.unit.BranchesTo id target →
        Spreading a.unit p (branchTo id target) :=
    fun target hBranch => branchTo_spreads hOrdered hOwn fun hCrosses =>
      hTargets target ⟨hBranch, hCrosses⟩
  have hStart : a.unit.Grows a.unit := .refl _
  cases act with
  | call returns => exact hLabels returns (fun _ hIn => hIn) a () a' hStart hRun
  | cycle name =>
    rcases jump_eq_ok rfl hRun with ⟨c, t, hFound, hAim, hStep⟩
    exact hTo t (.cycle hEval hNode (hScopes ▸ hFound) hAim) a () a' hStart hStep
  | exit name =>
    rcases jump_eq_ok rfl hRun with ⟨c, t, hFound, hAim, hStep⟩
    exact hTo t (.exit hEval hNode (hScopes ▸ hFound) hAim) a () a' hStart hStep
  | goto label =>
    exact branchToLabel_spreads hOrdered hOwn
      (hLabel label (by simp [Action.branchLabels])) a () a' hStart hRun
  | computedGoto labels => exact hLabels labels (fun _ hIn => hIn) a () a' hStart hRun
  | arithmeticIf category labels =>
    refine (hLabels labels fun _ hIn => hIn).bind (fun _ => ?_) a () a' hStart hRun
    exact .ite (count_marks hCounted _).spreads (.pure ())
  | assign label symbol => exact (assign_marks label symbol).spreads a () a' hStart hRun
  | assignedGoto =>
    exact (unstructure_marks hOwn).spreads.bind
      (fun _ => (beginBlockAfter_marks id).spreads) a () a' hStart hRun
  | «return» | stop => exact (leave_marks hOwn).spreads a () a' hStart hRun
  | io =>
    refine Spreading.bind (.forM fun f _ => (format_marks hOwn f).spreads)
      (fun _ => .forM fun spec hIn => ?_) a () a' hStart hRun
    refine ioSpec_spreads hOrdered hOwn fun label t hSome => ?_
    exact hLabel label (List.mem_filterMap.mpr ⟨spec, hIn, hSome⟩) t
  | assignment | «continue» | «if» | other => exact Spreading.pure () a () a' hStart hRun

----
-- Constructs
----

/- The exit of a construct is no mark. -/
theorem construct_spreads (hOwn : p.own id) (hExit : a.unit.exit? id = none)
    (hRun : construct id kind a = .ok () a') : Spreads u p a.unit a'.unit := by
  rcases construct_eq_ok hRun with ⟨exit, last, b, -, -, hSet, hAdds, -⟩
  have hFirst : Spreads u p a.unit b.unit := by
    refine ⟨(exit_begins hSet hExit).grows, ?_, ?_, ?_⟩
    · exact fun k hBlock => (exit_kept hSet (·.any _) (fun _ _ => rfl) k).trans hBlock
    · exact fun k _ => exit_kept hSet (·.map _) (fun _ _ => rfl) k
    · exact fun k hFlag => .inl ((exit_kept hSet (·.any _) (fun _ _ => rfl) k).symm.trans hFlag)
  exact hFirst.trans (hAdds.spreads.weaken (fun _ hSame => hSame ▸ hOwn) (fun _ => False.elim)
    fun _ => False.elim)

----
-- Beginnings and ends
----

/- The evaluations that a statement may count blocks for. -/
def Counts (e : Evaluation) (siblings : List EvalId) (id k : EvalId) : Prop :=
  e.isAction = true ∧ k = id ∨ (e.guard?.map Guard.kind = some .endDo ∧
      (k = id ∨ siblings.head? = some k))

/- What the beginning of an evaluation may mark. -/
def beginLicence (u : FunctionUnit) (e : Evaluation) (siblings : List EvalId) (id : EvalId) :
    Licence where
  own k := k = id ∧ e.isOpen = true
  counted := Counts e siblings id
  targets := Crossing u id

theorem begin_spreads (hOrdered : a.unit.Ordered) (hScopes : a.scopes = a.unit.scopesBefore id)
    (hEval : a.unit.evals[id]? = some e) (hExit : a.unit.exit? id = none)
    (hRun : begin options parent siblings left id a = .ok left' a') :
    Spreads a.unit (beginLicence a.unit e siblings id) a.unit a'.unit := by
  have hStart : a.unit.Grows a.unit := .refl _
  have hBeginning := begin_beginning hEval hRun
  generalize hNode : e.node = node at hBeginning
  cases hBeginning with
  | action hAction =>
    refine action_spreads ⟨rfl, ?_⟩ (.inl ⟨?_, rfl⟩) (fun _ hIn => hIn) hOrdered hScopes hEval hNode
      hAction
    · rw [isOpen, hNode]
    · rw [isAction, action?, hNode]
      rfl
  | @guard g outer last a' _ hGuard =>
    have hCounted : g.kind = .endDo → Counts e siblings id id ∧
          ∀ k, siblings.head? = some k → Counts e siblings id k := by
      intro hEnd
      have hKind : e.guard?.map Guard.kind = some .endDo := by
        rw [guard?, hNode, Option.map_some, hEnd]
      exact ⟨.inr ⟨hKind, .inl rfl⟩, fun k hFirst => .inr ⟨hKind, .inr hFirst⟩⟩
    refine (guard_marks options outer siblings g (fun control hKind => ?_) hCounted (fun _ => trivial)
      fun _ _ => trivial).spreads _ _ _ hStart hGuard
    exact ⟨rfl, by simp only [isOpen, hNode, hKind]⟩
  | construct hConstruct =>
    refine construct_spreads ⟨rfl, ?_⟩ hExit hConstruct
    rw [isOpen, hNode]
  | nonExecutable | directive => exact .refl _

/- An `if` is marked only if its action is. -/
theorem finishConditional_spreads (hStructured : options.structured = true)
    (hOwn : a.unit.unstructured id = true → p.own conditional) (hGrows : u.Grows a.unit)
    (hRun : finishConditional options id conditional a = .ok () a') :
    Spreads u p a.unit a'.unit := by
  have hLast : Marking { p with steered := fun _ => True } (fun s => s) (do
        setControl conditional (some (← look (·.nextBeyondNops id))) : Analyze Unit) :=
    (look_marks _).quiet_bind fun next => setControl_marks trivial (some next)
  rcases bind_eq_ok hRun with ⟨needed, a₁, hNeeds, hRest⟩
  rcases look_bind_eq_ok hNeeds with ⟨e, hFound, hPure⟩
  cases hPure
  rw [eval_eq_ok_iff] at hFound
  have hFlag : a.unit.unstructured id = e.needsBranches options := by
    rw [FunctionUnit.unstructured, hFound, Option.any_some,
      Evaluation.needsBranches, hStructured, Bool.not_true, Bool.or_false]
  split at hRest
  · rename_i hNeeded
    refine Marking.steers ((beginBlock_marks id).quiet_bind fun _ => ?_) _ () a' hGrows hRest
    refine (beginBlockAfter_marks id).quiet_bind fun _ => ?_
    exact Marking.quiet_bind (unstructure_marks (hOwn (hFlag.trans hNeeded))) fun _ => hLast
  · exact hLast.steers _ () a' hGrows hRest

/-
  What the end of an evaluation marks: if the evaluation itself
  is marked, what is around it, and the `if` before it.
-/
theorem finish_spreads (hStructured : options.structured = true) (hGrows : u.Grows a.unit)
    (hRun : finish options parent left id a = .ok left' a') : Spreads u
      { p with own := fun k => a.unit.unstructured id = true ∧
          (parent = some k ∨ left.conditional = some k ∧ k ≠ id) } a.unit a'.unit := by
  rcases bind_eq_ok hRun with ⟨_, a₁, hConditional, hRest⟩
  rcases bind_eq_ok hRest with ⟨_, a₂, hArm, hRest'⟩
  rcases look_bind_eq_ok hRest' with ⟨e, hFound, hLast⟩
  rw [eval_eq_ok_iff] at hFound
  let p₁ : Licence := { p with
    own := fun k => a.unit.unstructured id = true ∧ left.conditional = some k ∧ k ≠ id
    targets := fun _ => False }
  have hFirst : Spreads u p₁ a.unit a₁.unit := by
    cases hFilter : left.conditional.filter fun c => c ≠ id with
    | none =>
      rw [hFilter] at hConditional
      cases hConditional
      exact .refl _
    | some c =>
      rw [hFilter] at hConditional
      rw [Option.filter_eq_some_iff, decide_eq_true_eq] at hFilter
      rcases bind_eq_ok hConditional with ⟨_, _, hStep, hNil⟩
      cases hNil
      exact finishConditional_spreads hStructured (fun hFlag => ⟨hFlag, hFilter⟩) hGrows hStep
  have hUntil : Spreads u p₁ a.unit a₂.unit := hFirst.trans
    (Marking.steers (leaveArm_marks parent trivial) a₁ () a₂ (hGrows.trans hFirst.grows) hArm)
  -- the evaluation is marked now if it was before
  have hMarked : e.isUnstructured = true → a.unit.unstructured id = true := by
    intro hNow
    have hFlag : a₂.unit.unstructured id = true := by
      rw [unstructured, hFound, Option.any_some, hNow]
    rcases hUntil.flags id hFlag with hBefore | ⟨-, -, hOther⟩ | ⟨_, hNone, -⟩
    · exact hBefore
    · exact absurd rfl hOther
    · exact hNone.elim
  refine Spreads.trans (hUntil.weaken (fun k hIn => ⟨hIn.1, .inr hIn.2⟩)
    (fun _ hNone => hNone.elim) fun _ hIn => hIn) ?_
  have hGrows₂ := hGrows.trans hUntil.grows
  cases hNow : e.isUnstructured with
  | true =>
    rw [hNow] at hLast
    refine Spreading.bind (.forM fun p hIn => ?_)
      (fun _ => (finishLast_marks options left id e).spreads) a₂ left' a' hGrows₂ hLast
    exact Marking.spreads (unstructure_marks ⟨hMarked hNow, .inl (Option.mem_toList.mp hIn)⟩)
  | false =>
    rw [hNow] at hLast
    exact (finishLast_marks options left id e).spreads a₂ left' a' hGrows₂ hLast

end Analyze

end FortranIR
