import FortranIR.Proofs.Flow.Placement

/-
  This file proves where constructs are left to, and where the
  statements go that refer to a construct.

  A construct is left for what follows its end statement. Where
  that only leaves another construct, it is left for what
  follows the end of that one, and so on. The analysis knows the
  exits of what is further out already, and so takes one step.

  Main declarations:
    * `FunctionUnit.Escapes`
    * `FlowTree.jump_successors`
-/

namespace FortranIR

open Outline FunctionUnit

variable {u : FunctionUnit}
variable {left : Open} {parent : Option EvalId}

----
-- Exits
----

namespace FunctionUnit

/-
  From a statement, the next one is reached that does more than
  to leave its construct: if the following one only leaves its
  construct, from the end of that construct.
-/
inductive Escapes (u : FunctionUnit) : EvalId → EvalId → Prop where
  | stop {id x : EvalId} {e : Evaluation} (hNext : u.next? id = some x)
      (hEval : u.evals[x]? = some e) (hOther : e.isNop = false) : Escapes u id x
  | skip {id n c last x : EvalId} {e : Evaluation} (hNext : u.next? id = some n)
      (hEval : u.evals[n]? = some e) (hNop : e.isNop = true) (hOuter : e.outer = some c)
      (hLast : u.lastChild? c = some last) (hRest : Escapes u last x) : Escapes u id x

theorem Escapes.isNop {id : EvalId} (hEscapes : u.Escapes id x) :
    ∃ e, u.evals[x]? = some e ∧ e.isNop = false := by
  induction hEscapes with
  | stop _ hEval hOther => exact ⟨_, hEval, hOther⟩
  | skip _ _ _ _ _ _ ih => exact ih

theorem Escapes.grows (hGrows : u.Grows v) {id : EvalId} (hEscapes : u.Escapes id x) :
    v.Escapes id x := by
  induction hEscapes with
  | stop hNext hEval hOther =>
    rcases hGrows.alike.symm.getElem? hEval with ⟨e, hEval', hLaid⟩
    refine .stop ((hGrows.alike.next?_eq _).trans hNext) hEval' ?_
    rw [Evaluation.eq_of_laid hLaid Evaluation.isNop, hOther]
  | skip hNext hEval hNop hOuter hLast _ ih =>
    rcases hGrows.alike.symm.getElem? hEval with ⟨e, hEval', hLaid⟩
    refine .skip ((hGrows.alike.next?_eq _).trans hNext) hEval' ?_ ?_
      ((hGrows.lastChild?_eq _).trans hLast) ih
    · rw [Evaluation.eq_of_laid hLaid Evaluation.isNop, hNop]
    · rw [Evaluation.eq_of_laid hLaid Evaluation.outer, hOuter]

/- Where a construct of a kind is left to. -/
def IsExit (u : FunctionUnit) (kind : ConstructKind) (c x : EvalId) : Prop := ∃ last,
    u.lastChild? c = some last ∧ if kind.endsWithCode then x = last else u.Escapes last x

end FunctionUnit

/- The evaluation gives itself a control successor. -/
def Evaluation.steers (e : Evaluation) : Bool := match e.node with
  | .action a => !a.branchLabels.isEmpty || a.reference?.isSome
  | .guard g => g.kind.boundsLoop
  | _ => false

/- Other evaluations may give the evaluation a control successor. -/
def Evaluation.isLeftOpen (e : Evaluation) : Bool :=
  e.isConditional || e.guard?.any fun g => g.kind.leavesOpen false

namespace Analyze

open FunctionUnit

variable {a : Analysis}

/- The exits of the constructs that have begun. -/
theorem exits_invariant (hPlaced : u.Placed) : Invariant u options fun _ place a =>
      ∀ c kind, c < place → u.kindAt? c = some kind →
        ∃ x, a.unit.exit? c = some x ∧ u.IsExit kind c x where
  begin := by
    intro opened siblings left left' place e a a' hVisits hAt hBefore hRun c kind hBelow hKind
    have hBegins := hVisits.begins hAt hRun
    rcases Nat.lt_succ_iff_lt_or_eq.mp hBelow with hEarlier | rfl
    · rcases hBefore c kind hEarlier hKind with ⟨x, hExit, hIs⟩
      exact ⟨x, hBegins.grows.exits c x hExit, hIs⟩
    rcases hAt.grows.getElem? hVisits.eval with ⟨e', hEval', hFixed⟩
    have hNode : e'.node = .construct kind := by
      rw [kindAt?, hVisits.eval, Option.bind_some, EvalNode.construct?_eq_some_iff] at hKind
      exact (congrArg Prod.fst hFixed).trans hKind
    have hBeginning := begin_beginning hEval' hRun
    rw [hNode] at hBeginning
    cases hBeginning with
    | construct hConstruct =>
      rcases construct_exit? hConstruct with ⟨x, last, hLast, hFrom, hExit⟩
      refine ⟨x, hExit, last, (hAt.grows.lastChild?_eq c).symm.trans hLast, ?_⟩
      cases hCode : kind.endsWithCode with
      | true =>
        rw [hCode] at hFrom
        exact hFrom
      | false =>
        rw [hCode] at hFrom
        rcases nextBeyondNops_eq_ok_iff.mp hFrom with ⟨n, f, hNext, hEval, hEnd⟩
        rw [hAt.grows.alike.next?_eq] at hNext
        rcases hAt.grows.alike.getElem? hEval with ⟨f₀, hEval₀, hLaid⟩
        have hNop := Evaluation.eq_of_laid hLaid Evaluation.isNop
        cases hIs : f.isNop with
        | false =>
          rw [hIs] at hEnd
          exact .stop (hEnd ▸ hNext) (hEnd ▸ hEval₀) (hNop.trans hIs)
        | true =>
          rw [hIs] at hEnd
          rcases hEnd with ⟨d, hOuter, hKnown⟩
          have hOuter₀ : f₀.outer = some d :=
            (Evaluation.eq_of_laid hLaid Evaluation.outer).trans hOuter
          -- what has an exit has begun
          have hBegun : d < c := by
            refine Nat.lt_of_not_le fun hLater => ?_
            rw [hAt.exits d hLater] at hKnown
            cases hKnown
          rcases hPlaced.nop_cases hEval₀ (hNop.trans hIs) with
            ⟨d', outer, _, hSame, -, hOuterKind, hPlain, -⟩
          cases hOuter₀.symm.trans hSame
          rcases hBefore d outer hBegun hOuterKind with ⟨y, hY, last', hLast', hLeft⟩
          cases hKnown.symm.trans hY
          rw [hPlain] at hLeft
          exact .skip hNext hEval₀ (hNop.trans hIs) hOuter₀ hLast' hLeft
  finish := by
    intro opened siblings left left' id place e a a' _ _ _ hBefore hRun c kind hBelow hKind
    rcases hBefore c kind hBelow hKind with ⟨x, hExit, hIs⟩
    exact ⟨x, ((finish_notes options opened.head? left id).grows hRun).exits c x hExit, hIs⟩

----
-- Control successors
----

/- A step that steers other evaluations only. -/
theorem Marking.control?_eq {α : Type} {x : Analyze α} {r : α}
    (hMarking : Marking { steered := (· ≠ s) } f x) (hRun : x a = .ok r a') :
    a'.unit.control? s = a.unit.control? s :=
  (hMarking a r a' hRun).1.controls s fun hNot => hNot rfl

/-
  The beginning of an evaluation steers the open guard, and the
  evaluation itself if it is a branch or bounds a loop.
-/
theorem begin_control (hEval : a.unit.evals[c]? = some e) (hOwn : e.steers = true → c ≠ s)
    (hGuard : left.guard ≠ some s) (hRun : begin options parent siblings left c a = .ok left' a') :
    a'.unit.control? s = a.unit.control? s := by
  have hBeginning := begin_beginning hEval hRun
  rw [Evaluation.steers] at hOwn
  generalize e.node = node at hBeginning hOwn
  cases hBeginning with
  | action hAction =>
    refine (action_marks (fun _ => trivial) trivial fun hBranch => hOwn ?_).control?_eq hAction
    rcases hBranch with hLabels | hRefers
    · simp [hLabels]
    · simp [Option.isSome_iff_ne_none, hRefers]
  | guard _ hStep =>
    refine (guard_marks options _ siblings _ (fun _ _ => trivial)
      (fun _ => ⟨trivial, fun _ _ => trivial⟩) hOwn ?_).control?_eq hStep
    rintro l hLast rfl
    exact hGuard hLast
  | construct hConstruct =>
    rcases construct_eq_ok hConstruct with ⟨x, last, b, -, -, hSet, hAdds, -⟩
    exact (hAdds.controls s fun hNone => hNone).trans
      (exit_kept hSet (·.bind Evaluation.controlNext) (fun _ _ => rfl) s)
  | nonExecutable | directive => rfl

/- The end of an evaluation steers by leaving its arm only. -/
theorem finish_leaves (hConditional : left.conditional ≠ some s)
    (hRun : finish options parent left c a = .ok left' a') : ∃ a₁ a₂,
      a₁.unit.control? s = a.unit.control? s ∧ (∀ k, a₁.unit.exit? k = a.unit.exit? k) ∧
      a.unit.Grows a₁.unit ∧ leaveArm parent c a₁ = .ok () a₂ ∧
      a'.unit.control? s = a₂.unit.control? s := by
  rcases bind_eq_ok hRun with ⟨_, a₁, hFirst, hRest⟩
  rcases bind_eq_ok hRest with ⟨_, a₂, hArm, hLast⟩
  have hMarks : Marking { steered := (· ≠ s) } id
      ((left.conditional.filter fun d => d ≠ c).toList.forM (finishConditional options c)) := by
    refine finishConditionals_marks options (fun _ => trivial) ?_
    rintro d hSome rfl
    exact hConditional hSome
  have hAdds := (hMarks a _ a₁ hFirst).1
  exact ⟨a₁, a₂, hMarks.control?_eq hFirst, hAdds.exits, hAdds.grows, hArm,
    (finishMarks_marks options parent left (fun _ => trivial) c).control?_eq hLast⟩

/- What does not leave its arm keeps its control successor. -/
theorem finish_control (hConditional : left.conditional ≠ some s)
    (hOwn : c = s → (a.unit.control? s).isSome = true)
    (hRun : finish options parent left c a = .ok left' a') :
    a'.unit.control? s = a.unit.control? s := by
  rcases finish_leaves hConditional hRun with ⟨a₁, a₂, hBefore, -, -, hArm, hAfter⟩
  rw [hAfter, ← hBefore]
  by_cases hHere : c = s
  · -- nothing is done where there is a successor
    subst hHere
    rcases look_bind_eq_ok hArm with ⟨e, hEval, hRest⟩
    rw [eval_eq_ok_iff] at hEval
    have hControl := hBefore ▸ hOwn rfl
    rw [control?, hEval, Option.bind_some] at hControl
    rcases Option.isSome_iff_exists.mp hControl with ⟨t, hSome⟩
    simp only [hSome] at hRest
    cases hRest
    rfl
  · exact (leaveArm_marks parent fun hSame => hHere hSame).control?_eq hArm

theorem jumpTarget?_grows (hGrows : u.Grows v)
    (hTarget : u.jumpTarget? c act = some t) : v.jumpTarget? c act = some t := by
  cases act with
  | cycle name => exact (hGrows.lastChild?_eq c).trans hTarget
  | exit name => exact hGrows.exits c t hTarget
  | _ => cases hTarget

/-
  The visits of a statement: it has no control successor before,
  `p` holds of the unit as long as it is open, and `q` behind it.
-/
def Stage (p q : FunctionUnit → Prop) (s : EvalId) (opened : List EvalId) (place : Nat)
    (v : FunctionUnit) : Prop :=
  if s < place then if s ∈ opened then p v else q v else v.control? s = none

theorem Stage.kept {w : FunctionUnit} (hStage : Stage p q s opened place v)
    (hControl : w.control? s = v.control? s) (hStays : s < place → (p v → p w) ∧ (q v → q w)) :
    Stage p q s opened place w := by
  unfold Stage at hStage ⊢
  split
  · rename_i hBelow
    rw [if_pos hBelow] at hStage
    split
    · rename_i hIn
      exact (hStays hBelow).1 (by rwa [if_pos hIn] at hStage)
    · rename_i hOut
      exact (hStays hBelow).2 (by rwa [if_neg hOut] at hStage)
  · rename_i hAbove
    rwa [if_neg hAbove, ← hControl] at hStage

/- A statement that is not left open waits for nothing. -/
theorem Waits.closed (hWaits : Waits u outer left)
    (hEval : u.evals[s]? = some e) (hClosed : e.isLeftOpen = false) :
    left.guard ≠ some s ∧ left.conditional ≠ some s := by
  rw [Evaluation.isLeftOpen, Bool.or_eq_false_iff] at hClosed
  refine ⟨fun hOpen => ?_, fun hOpen => ?_⟩
  · rcases hWaits.guard s hOpen with ⟨f, g, hSame, hNode, hIs⟩
    cases hEval.symm.trans hSame
    rw [Evaluation.guard?, hNode, Option.any_some, hIs] at hClosed
    cases hClosed.2
  · rcases hWaits.conditional s hOpen with ⟨f, hSame, -, hIs⟩
    cases hEval.symm.trans hSame
    cases hClosed.1.symm.trans hIs

/-
  What the beginning and the end of a statement do to its control
  successor, if no other evaluation gives it one.
-/
theorem control_invariant (hEval : u.evals[s]? = some e)
    (hClosed : e.isLeftOpen = false)
    (hBegin : ∀ {opened siblings left left' a a'}, Visits u opened siblings left s e → At u s a →
      a.unit.control? s = none → begin options opened.head? siblings left s a = .ok left' a' →
      p a'.unit)
    (hFinish : ∀ {opened siblings left left' place a a'}, Visits u opened siblings left s e →
      At u place a → p a.unit → finish options opened.head? left s a = .ok left' a' → q a'.unit)
    (hKept : ∀ v w : FunctionUnit, v.Grows w → w.control? s = v.control? s →
      (∀ k < s, w.exit? k = v.exit? k) → (p v → p w) ∧ (q v → q w)) :
    Invariant u options fun opened place a =>
      (place :: opened).Pairwise (· > ·) ∧ Stage p q s opened place a.unit where
  begin := by
    intro opened siblings left left' place f a a' hVisits hAt hInv hRun
    rcases hInv with ⟨hSorted, hStage⟩
    have hBegins := hVisits.begins hAt hRun
    refine ⟨List.pairwise_cons.mpr ⟨?_, hSorted⟩, ?_⟩
    · rw [List.pairwise_cons] at hSorted
      exact List.forall_mem_cons.mpr
        ⟨Nat.lt_succ_self place, fun o hIn => Nat.lt_succ_of_lt (hSorted.1 o hIn)⟩
    by_cases hHere : s = place
    · subst hHere
      cases hVisits.eval.symm.trans hEval
      rw [Stage, if_neg (Nat.lt_irrefl s)] at hStage
      rw [Stage, if_pos (Nat.lt_succ_self s), if_pos (.head _)]
      exact hBegin hVisits hAt hStage hRun
    · rcases hAt.grows.getElem? hVisits.eval with ⟨f', hEval', -⟩
      have hControl := begin_control hEval' (fun _ => Ne.symm hHere)
        (hVisits.waits.closed hEval hClosed).1 hRun
      have hNow := hStage.kept hControl fun hBelow =>
        hKept a.unit a'.unit hBegins.grows hControl fun k hLess =>
          hBegins.exits k (Nat.ne_of_lt (hLess.trans hBelow))
      simpa only [Stage, Nat.lt_succ_iff_lt_or_eq, hHere, or_false, List.mem_cons, false_or] using hNow
  finish := by
    intro opened siblings left left' id place f a a' hVisits _ hAt hInv hRun
    rcases hInv with ⟨hSorted, hStage⟩
    rw [List.pairwise_cons, List.pairwise_cons, List.forall_mem_cons] at hSorted
    rcases hSorted with ⟨⟨hBelow, hAbove⟩, hInner, hSorted⟩
    refine ⟨List.pairwise_cons.mpr ⟨hAbove, hSorted⟩, ?_⟩
    by_cases hHere : s = id
    · subst hHere
      cases hVisits.eval.symm.trans hEval
      rw [Stage, if_pos hBelow, if_pos (.head _)] at hStage
      rw [Stage, if_pos hBelow, if_neg fun hIn => Nat.lt_irrefl s (hInner s hIn)]
      exact hFinish hVisits hAt hStage hRun
    · have hAdds := (finish_notes options opened.head? left id a left' a' hRun).1
      have hControl := finish_control (hVisits.waits.closed hEval hClosed).2
        (fun hSame => absurd hSame.symm hHere) hRun
      have hNow := hStage.kept hControl fun _ =>
        hKept a.unit a'.unit hAdds.grows hControl fun k _ => hAdds.exits k
      simpa only [Stage, List.mem_cons, hHere, false_or] using hNow

/- What refers to a construct goes there, when it is visited. -/
theorem jumps_invariant (hEval : u.evals[s]? = some e)
    (hNode : e.node = .action act) (hRefers : act.reference? = some name) :
    let p (v : FunctionUnit) := ∃ c t, (u.scopesBefore s).find? name = some c ∧
      v.jumpTarget? c act = some t ∧ v.control? s = some t
    Invariant u options fun opened place a =>
      (place :: opened).Pairwise (· > ·) ∧ Stage p p s opened place a.unit := by
  have hClosed : e.isLeftOpen = false := by
    rw [Evaluation.isLeftOpen, Evaluation.isConditional, Evaluation.guard?, hNode]
    cases act <;> simp [Action.reference?] at hRefers ⊢
  refine control_invariant hEval hClosed ?_ ?_ ?_
  · intro opened siblings left left' a a' hVisits hAt hNone hRun
    rcases hAt.grows.getElem? hEval with ⟨e', hEval', hFixed⟩
    have hNode' : e'.node = .action act := (congrArg Prod.fst hFixed).trans hNode
    have hBeginning := begin_beginning hEval' hRun
    rw [hNode'] at hBeginning
    cases hBeginning with
    | action hAction =>
      rcases jump_eq_ok hRefers hAction with ⟨c, t, hFound, hTarget, hBranch⟩
      exact ⟨c, t, hAt.scopes ▸ hFound,
        jumpTarget?_grows (hVisits.begins hAt hRun).grows hTarget,
        branchTo_control hEval' hNone hBranch⟩
  · rintro opened siblings left left' place a a' hVisits - ⟨c, t, hFound, hTarget, hSome⟩ hRun
    refine ⟨c, t, hFound, jumpTarget?_grows
      ((finish_notes options opened.head? left s).grows hRun) hTarget, ?_⟩
    rw [finish_control (hVisits.waits.closed hEval hClosed).2 (fun _ => by rw [hSome]; rfl) hRun,
      hSome]
  · intro v w hGrows hControl _
    refine ⟨?_, ?_⟩ <;>
      · rintro ⟨c, t, hFound, hTarget, hSome⟩
        exact ⟨c, t, hFound, jumpTarget?_grows hGrows hTarget, hControl.trans hSome⟩

end Analyze

----
-- Innermost loops and names
----

/- The names of the constructs of a subprogram. -/
def SubprogramHead.constructNames (s : SubprogramHead) : List String :=
  s.listing.filterMap fun e => e.guard?.bind Guard.name?

namespace FunctionUnit

/- A loop around an evaluation that no other such loop is in. -/
def InnermostLoop (u : FunctionUnit) (s c : EvalId) : Prop :=
  u.kindAt? c = some .do ∧ u.Contains c s ∧
    ∀ d, u.kindAt? d = some .do → u.Contains d s → d = c ∨ u.Contains d c

section

variable (hPlaced : u.Placed)
include hPlaced

/- What the innermost open loop is to an action. -/
theorem Placed.innermostLoop (hOther : u.guardAt? s = none)
    (hHead : (u.scopesBefore s).loops.head? = some c) : u.InnermostLoop s c := by
  rcases hPlaced.loops s with ⟨hSorted, hOpen⟩
  rcases List.head?_eq_some_iff.mp hHead with ⟨rest, hLoops⟩
  rw [hLoops] at hSorted hOpen
  rcases (hOpen c).mp (.head _) with ⟨hLoop, hInside, -⟩
  refine ⟨hLoop, hInside, fun d hKind hContains => ?_⟩
  have hAfter : d + 1 < s := by
    refine Nat.lt_of_le_of_ne (hContains.lt hPlaced.formed.ordered) ?_
    rintro rfl
    rcases (hPlaced.loop hKind).1 with ⟨_, _, hDo⟩
    cases hOther.symm.trans hDo
  rcases List.mem_cons.mp ((hOpen d).mpr ⟨hKind, hContains, hAfter⟩) with hSame | hLater
  · exact .inl hSame
  · -- what begins further out is around what begins behind that
    have hBelow := (List.pairwise_cons.mp hSorted).1 d hLater
    exact .inr (hPlaced.contains_between hContains hBelow
      (Nat.le_of_lt (hInside.lt hPlaced.formed.ordered)))

/- No two constructs have the same name. -/
theorem Placed.eq_of_nameAt? (hUnique : u.source.constructNames.Nodup) {i j : Nat} {n : String}
    (hI : u.nameAt? i = some n) (hJ : u.nameAt? j = some n) : i = j := by
  have hNames : u.source.constructNames = u.evals.filterMap fun e => e.guard?.bind Guard.name? := by
    rw [SubprogramHead.constructNames, ← hPlaced.threaded.source, List.filterMap_map]
    rfl
  rw [hNames, List.Nodup, List.pairwise_filterMap, List.pairwise_iff_getElem] at hUnique
  rw [nameAt?, guardAt?, Option.bind_assoc] at hI hJ
  rcases Option.bind_eq_some_iff.mp hI with ⟨e, hE, hName⟩
  rcases Option.bind_eq_some_iff.mp hJ with ⟨f, hF, hName'⟩
  rcases List.getElem?_eq_some_iff.mp hE with ⟨hBelow, rfl⟩
  rcases List.getElem?_eq_some_iff.mp hF with ⟨hBelow', rfl⟩
  rcases Nat.lt_trichotomy i j with hLess | hSame | hMore
  · exact absurd rfl (hUnique i j hBelow hBelow' hLess n hName n hName')
  · exact hSame
  · exact absurd rfl (hUnique j i hBelow' hBelow hMore n hName' n hName)

end

----
-- Units
----

variable {parent : UnitParent} {source : SubprogramHead}

theorem ofHead_control? (s : EvalId) : (ofHead parent source).control? s = none := by
  cases hFirst : (ofHead parent source).evals[s]? with
  | none => rw [control?, hFirst]; rfl
  | some f =>
    rw [control?, hFirst, ← ofHead_laid hFirst]
    rfl

theorem InnermostLoop.grows (hGrows : u.Grows v) (hLoop : u.InnermostLoop s c) :
    v.InnermostLoop s c := by
  simpa only [InnermostLoop, hGrows.kindAt?_eq, hGrows.contains_iff] using hLoop

variable (hRun : (ofHead parent source).complete options = .ok u)

include hRun

/- The exits of the constructs of a complete unit. -/
theorem complete_isExit (hPlaced : (ofHead parent source).Placed)
    (hKind : (ofHead parent source).kindAt? c = some kind) :
    ∃ x, u.exit? c = some x ∧ (ofHead parent source).IsExit kind c x := by
  rcases complete_adds hRun with ⟨analyzed, hAnalyze, hAdds⟩
  rcases (Analyze.exits_invariant hPlaced).analyze (fun _ _ => nofun) hAnalyze with
    ⟨a, rfl, hAt, hExits⟩
  rcases Option.bind_eq_some_iff.mp hKind with ⟨e, hEval, -⟩
  have hBelow := (List.getElem?_eq_some_iff.mp hEval).1
  rw [← hAt.grows.alike.length_eq] at hBelow
  rcases hExits c kind hBelow hKind with ⟨x, hExit, hIs⟩
  exact ⟨x, (hAdds.exits c).trans hExit, hIs⟩

/- What holds behind the visit of a statement of a complete unit. -/
theorem complete_stage
    (hStages : Analyze.Invariant (ofHead parent source) options fun opened place a =>
      (place :: opened).Pairwise (· > ·) ∧ Analyze.Stage p q s opened place a.unit)
    (hEval : u.evals[s]? = some e) :
    ∃ analyzed, (ofHead parent source).Grows analyzed ∧ Adds .none analyzed u ∧ q analyzed := by
  rcases complete_adds hRun with ⟨analyzed, hAnalyze, hAdds⟩
  have hStart : Analyze.Stage p q s [] 0 (ofHead parent source) := by
    exact ofHead_control? s
  rcases hStages.analyze ⟨List.pairwise_singleton _ _, hStart⟩ hAnalyze with ⟨a, rfl, hAt, -, hStage⟩
  have hBelow : s < a.unit.evals.length := by
    rw [← hAdds.grows.alike.length_eq]
    exact (List.getElem?_eq_some_iff.mp hEval).1
  rw [Analyze.Stage, if_pos hBelow] at hStage
  exact ⟨a.unit, hAt.grows, hAdds, hStage⟩

/- Where the statements of a complete unit go that refer to a construct. -/
theorem complete_control (hEval : u.evals[s]? = some e) (hNode : e.node = .action act)
    (hRefers : act.reference? = some name) :
    ∃ c t, ((ofHead parent source).scopesBefore s).find? name = some c ∧
      u.jumpTarget? c act = some t ∧ e.controlNext = some t := by
  rcases (complete_grows hRun).alike.getElem? hEval with ⟨e₀, hEval₀, hLaid⟩
  have hNode₀ := (Evaluation.eq_of_laid hLaid Evaluation.node).trans hNode
  rcases complete_stage hRun (Analyze.jumps_invariant hEval₀ hNode₀ hRefers) hEval with
    ⟨analyzed, -, hAdds, c, t, hFound, hTarget, hSome⟩
  refine ⟨c, t, hFound, Analyze.jumpTarget?_grows hAdds.grows hTarget, ?_⟩
  rwa [← hAdds.controls s fun hNone => hNone, control?, hEval] at hSome

end FunctionUnit

----
-- Trees
----

/-
  A construct is left for what is reached from its last
  statement without the statements that only leave a construct.
  A statement that refers to a construct goes to the last
  statement or to the exit of the innermost loop around it or,
  with a name, of the construct of this name.
-/
theorem FlowTree.jump_successors {units : List ProgramUnit} {tree : FlowTree}
    (hTree : ofProgram options units = .ok tree) (hUnit : u ∈ tree.functionUnits)
    (hFormed : u.source.isWellFormed = true) (hNames : u.source.constructNames.Nodup) :
    (∀ c kind, u.kindAt? c = some kind → kind.endsWithCode = false →
      ∃ last x e, u.lastChild? c = some last ∧ u.exit? c = some x ∧ u.Escapes last x ∧
        u.evals[x]? = some e ∧ e.isNop = false) ∧
    ∀ s e act name, u.evals[s]? = some e → e.node = .action act → act.reference? = some name →
      ∃ t, e.controlNext = some t ∧
        (name = none → ∃ c, u.InnermostLoop s c ∧ u.jumpTarget? c act = some t) ∧
        ∀ n c, name = some n → (u.firstChild? c).bind u.nameAt? = some n →
          u.jumpTarget? c act = some t := by
  rcases ofProgram_complete hTree hUnit with ⟨parent, head, hComplete⟩
  rw [complete_source hComplete] at hFormed hNames
  have hPlaced := ofHead_placed parent (ofHead_wellFormed parent hFormed)
  have hGrows := complete_grows hComplete
  refine ⟨fun c kind hKind hPlain => ?_, fun s e act name hEval hNode hRefers => ?_⟩
  · rcases complete_isExit hComplete hPlaced ((hGrows.kindAt?_eq c).symm.trans hKind)
      with ⟨x, hExit, last, hLast, hLeft⟩
    rw [hPlain, if_neg Bool.false_ne_true] at hLeft
    have hEscapes := hLeft.grows hGrows
    rcases hEscapes.isNop with ⟨e, hEval, hOther⟩
    exact ⟨last, x, e, (hGrows.lastChild?_eq c).trans hLast, hExit, hEscapes, hEval, hOther⟩
  · rcases complete_control hComplete hEval hNode hRefers with
      ⟨c, t, hFound, hTarget, hControl⟩
    refine ⟨t, hControl, ?_, ?_⟩
    · rintro rfl
      have hOther : (ofHead parent head).guardAt? s = none := by
        rw [← hGrows.guardAt?_eq, guardAt?, hEval, Option.bind_some,
          Evaluation.guard?, hNode]
      exact ⟨c, (hPlaced.innermostLoop hOther hFound).grows hGrows, hTarget⟩
    · rintro n d rfl hName
      rcases Option.bind_eq_some_iff.mp hName with ⟨first, hFirst, hGiven⟩
      rcases hPlaced.nameAt?_of_mem (mem_of_lookup hFound) with ⟨i, -, hAlso, hOuter⟩
      have hSame : i = first := by
        refine hPlaced.eq_of_nameAt? hNames hAlso ?_
        rw [← hGiven, nameAt?, nameAt?, hGrows.guardAt?_eq]
      subst hSame
      rw [hGrows.firstChild?_eq] at hFirst
      have hIn := hPlaced.formed.outer?_of_firstChild? hFirst
      rw [hOuter, Option.some.injEq] at hIn
      exact hIn ▸ hTarget

/-
  A loop at the end of the first arm of an `if`, in a loop with
  a name. It goes on with its next turn or leaves both loops.
-/
def nestedLoops : List ProgramUnit :=
  [.subprogram (.mk
    { kind := .program
      name := none
      body :=
        [.construct .do [⟨⟨none, "outer: do", ⟨.do none, some "outer"⟩⟩, [.construct .if
            [⟨⟨none, "if (c) then", ⟨.ifThen, none⟩⟩, [.construct .do
                [⟨⟨none, "do", ⟨.do none, none⟩⟩, [.action ⟨none, "cycle", .cycle none⟩,
                  .action ⟨none, "exit outer", .exit (some "outer")⟩]⟩]
                ⟨none, "end do", ⟨.endDo, none⟩⟩]⟩,
              ⟨⟨none, "else", ⟨.else, none⟩⟩, [.action ⟨none, "x = 1", .assignment⟩]⟩]
            ⟨none, "end if", ⟨.endIf, none⟩⟩]⟩] ⟨none, "end do outer", ⟨.endDo, some "outer"⟩⟩] } [])]

/- The inner loop is left for the end of the outer one. -/
theorem FlowTree.jump_successors_nestedLoops : ∃ tree u, ofProgram {} nestedLoops = .ok tree ∧
      u ∈ tree.functionUnits ∧ u.source.isWellFormed = true ∧ u.source.constructNames.Nodup ∧
      (u.kindAt? 4 = some .do ∧ u.exit? 4 = some 12 ∧ u.Escapes 8 12) ∧
      (∃ e act, u.evals[6]? = some e ∧ e.node = .action act ∧ act.reference? = some none ∧
        ∃ c t, u.InnermostLoop 6 c ∧ u.jumpTarget? c act = some t ∧ e.controlNext = some t) ∧
      ∃ e act t, u.evals[7]? = some e ∧ e.node = .action act ∧
        act.reference? = some (some "outer") ∧ u.jumpTarget? 0 act = some t ∧
        e.controlNext = some t := by
  have hFound : ∃ u ∈ firstUnit? {} nestedLoops, u.source.isWellFormed = true ∧
        u.source.constructNames.Nodup ∧ u.kindAt? 4 = some .do ∧
        u.exit? 4 = some 12 ∧ u.lastChild? 4 = some 8 ∧
        (∃ e ∈ u.evals[6]?, ∃ act ∈ e.action?, act.reference? = some none) ∧
        (∃ e ∈ u.evals[7]?, ∃ act ∈ e.action?, act.reference? = some (some "outer")) ∧
        (u.firstChild? 0).bind u.nameAt? = some "outer" := by decide +kernel
  rcases exists_unit hFound with ⟨tree, u, hOk, hMember, hFormed, hNames, hDo, hExit, hLast,
    ⟨e, hEval, act, hNode, hRefers⟩, ⟨e', hEval', act', hNode', hRefers'⟩, hNamed⟩
  rw [Option.mem_def, Evaluation.action?_eq_some_iff] at hNode hNode'
  have hFlow := jump_successors hOk hMember hFormed hNames
  rcases hFlow.1 4 .do hDo rfl with ⟨last, x, -, hLast', hExit', hEscapes, -⟩
  cases hLast.symm.trans hLast'
  cases hExit.symm.trans hExit'
  rcases hFlow.2 6 e act none hEval hNode hRefers with ⟨t, hControl, hLoop, -⟩
  rcases hFlow.2 7 e' act' (some "outer") hEval' hNode' hRefers' with ⟨t', hControl', -, hTo⟩
  rcases hLoop rfl with ⟨c, hInner, hTarget⟩
  exact ⟨tree, u, hOk, hMember, hFormed, hNames, ⟨hDo, hExit, hEscapes⟩,
    ⟨e, act, hEval, hNode, hRefers, c, t, hInner, hTarget, hControl⟩,
    e', act', t', hEval', hNode', hRefers', hTo "outer" 0 rfl hNamed, hControl'⟩

end FortranIR
