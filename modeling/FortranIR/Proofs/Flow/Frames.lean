import FortranIR.Proofs.Flow.Closure

/-
  This file states what the steps of the analysis of branches
  need in order not to fail.

  A step fails only if the unit lacks something that it looks
  up. It looks up evaluations, labels, what follows a statement,
  and the exits of constructs that have begun.

  Main declarations:
    * `FunctionUnit.Follows`
    * `Analyze.finish_does`
-/

namespace FortranIR

open Outline Evaluation

variable {source c id : EvalId} {left : Open}
variable {u : FunctionUnit} {s : Scopes → Prop} {g : Guard}
variable {last parent : Option EvalId} {β α : Type} {begun : EvalId → Prop}
variable {a : Analysis} {e : Evaluation} {label : Label} {f : FunctionUnit → Except Fault α}
variable {x : Analyze α} {q : α → Prop} {r : α} {y : α → Analyze β}

----
-- Steps
----

/- There is an evaluation of the number. -/
abbrev FunctionUnit.Has (u : FunctionUnit) (id : EvalId) : Prop := ∃ e, u.evals[id]? = some e

/-
  Something follows an evaluation, and if that only leaves its
  construct, the construct has begun.
-/
structure FunctionUnit.Follows (u : FunctionUnit) (begun : EvalId → Prop) (id : EvalId) : Prop where
  next : ∃ n e, u.next? id = some n ∧ u.evals[n]? = some e
  nop : ∀ n e, u.next? id = some n → u.evals[n]? = some e →
      e.isNop = true → ∃ c, e.outer = some c ∧ begun c

/- Something follows the guard that may fall through, if there is one. -/
abbrev FunctionUnit.Followed (u : FunctionUnit) (last : Option EvalId) : Prop :=
  ∀ l, last = some l → (u.next? l).isSome = true

namespace Analyze

open FunctionUnit

/-
  The state of an analysis: the layout of the unit is kept, the
  constructs that have begun have exits, and only evaluations
  that are followed by others have control successors.
-/
structure Stands (u : FunctionUnit) (begun : EvalId → Prop) (s : Scopes → Prop)
    (a : Analysis) : Prop where
  alike : u.Alike a.unit
  scopes : s a.scopes
  exits : ∀ c, begun c → ∃ x e, a.unit.exit? c = some x ∧ u.evals[x]? = some e
  control : ∀ (id : EvalId) (e : Evaluation),
      a.unit.evals[id]? = some e → e.controlNext.isSome = true → e.lexicalNext.isSome = true

/-
  From states with a property, a step returns, with what is said
  of its result and the state behind it.
-/
def Leads (p : Analysis → Prop) (x : Analyze α) (q : α → Analysis → Prop) : Prop :=
  ∀ a, p a → ∃ r a', x a = .ok r a' ∧ q r a'

theorem Leads.bind {q : α → Analysis → Prop} {r : β → Analysis → Prop} (hFirst : Leads p x q)
    (hRest : ∀ v, Leads (q v) (y v) r) : Leads p (x >>= y) r := by
  intro a hBefore
  rcases hFirst a hBefore with ⟨v, a₁, hRun, hStep⟩
  rcases hRest v a₁ hStep with ⟨w, a', hNext, hAfter⟩
  exact ⟨w, a', bind_of_ok hRun hNext, hAfter⟩

/-
  A step that keeps the state, and gives something with a
  property.
-/
def Does (u : FunctionUnit) (begun : EvalId → Prop) (s : Scopes → Prop) (q : α → Prop)
    (x : Analyze α) : Prop := Leads (Stands u begun s) x fun r a' => Stands u begun s a' ∧ q r

/- A step that keeps the state, whatever it gives. -/
abbrev Runs (u : FunctionUnit) (begun : EvalId → Prop) (s : Scopes → Prop) (x : Analyze α) : Prop :=
  Does u begun s (fun _ => True) x

theorem Does.pure (hResult : q r) : Does u begun s q (pure r : Analyze α) :=
  fun a hStands => ⟨r, a, rfl, hStands, hResult⟩

/- A step that keeps the state, in front of any other one. -/
theorem Does.lead {p : α → Prop} {q : β → Analysis → Prop} (hFirst : Does u begun s p x)
    (hRest : ∀ r, p r → Leads (Stands u begun s) (y r) q) :
    Leads (Stands u begun s) (x >>= y) q :=
  Leads.bind hFirst fun r a hStep => hRest r hStep.2 a hStep.1

theorem Does.bind {q : β → Prop} (hFirst : Does u begun s p x)
    (hRest : ∀ r, p r → Does u begun s q (y r)) : Does u begun s q (x >>= y) := hFirst.lead hRest

theorem Does.forM {xs : List α} {f : α → Analyze Unit} (hEach :
      ∀ x ∈ xs, Runs u begun s (f x)) :
    Runs u begun s (xs.forM f) :=
  forM_of_each (.pure trivial) (fun _ _ hX hY => hX.bind fun _ _ => hY) hEach

theorem Does.ite {cond : Prop} [Decidable cond] {y : Analyze α}
    (hThen : cond → Does u begun s q x) (hElse : ¬ cond → Does u begun s q y) :
    Does u begun s q (if cond then x else y) := by
  split
  · exact hThen ‹_›
  · exact hElse ‹_›

----
-- Lookups
----

theorem look_of_ok (hFound : f a.unit = .ok r) : look f a = .ok r a := by
  unfold look
  rw [bind_of_get rfl]
  simp only [hFound]
  rfl

theorem look_does (hFound : ∀ a, Stands u begun s a → ∃ r, f a.unit = .ok r ∧ q r) :
    Does u begun s q (look f) := by
  intro a hStands
  rcases hFound a hStands with ⟨r, hRun, hResult⟩
  exact ⟨r, a, look_of_ok hRun, hStands, hResult⟩

/- An evaluation is found as it was laid out. -/
theorem eval_does (hThere : u.Has id) : Does u begun s
      (fun e => (∃ e₀, u.evals[id]? = some e₀ ∧ e.laid = e₀.laid) ∧
        (e.controlNext.isSome = true → e.lexicalNext.isSome = true)) (look (·.eval id)) := by
  refine look_does fun a hStands => ?_
  rcases hThere with ⟨e₀, hEval⟩
  rcases hStands.alike.symm.getElem? hEval with ⟨e, hFound, hLaid⟩
  exact ⟨e, eval_eq_ok_iff.mpr hFound, ⟨e₀, hEval, hLaid⟩, hStands.control id e hFound⟩

/- Something that the layout of an evaluation shows is found. -/
theorem field_does {f : Evaluation → Option α} (hField : (u.evals[id]?).bind f = some r)
    (hLaid : ∀ e, f e.laid = f e := by exact fun _ => rfl) :
    Does u begun s (fun e => f e = some r) (look (·.eval id)) := by
  refine look_does fun a hStands => ?_
  rw [← hStands.alike.bind_eq hLaid] at hField
  rcases Option.bind_eq_some_iff.mp hField with ⟨e, hFound, hSome⟩
  exact ⟨e, eval_eq_ok_iff.mpr hFound, hSome⟩

theorem next_does (hFollows : u.Follows begun id) :
    Does u begun s u.Has (look (·.next id)) := by
  refine look_does fun a hStands => ?_
  rcases hFollows.next with ⟨n, f, hNext, hThere⟩
  exact ⟨n, next_eq_ok_iff.mpr ((hStands.alike.next?_eq id).trans hNext), f, hThere⟩

theorem exitOf_does (hBegun : begun c) :
    Does u begun s u.Has (look (·.exitOf c)) := by
  refine look_does fun a hStands => ?_
  rcases hStands.exits c hBegun with ⟨x, e, hExit, hThere⟩
  exact ⟨x, exitOf_eq_ok_iff.mpr hExit, e, hThere⟩

theorem orElse_does {fault : Fault} {x : Option α} (hSome : ∃ r, x = some r ∧ q r) :
    Does u begun s q (look fun _ => fault.orElse x) := by
  refine look_does fun _ _ => ?_
  rcases hSome with ⟨r, hFound, hResult⟩
  exact ⟨r, orElse_eq_ok_iff.mpr hFound, hResult⟩

/- What follows is found, also at the exit of a construct. -/
theorem nextBeyondNops_does (hFollows : u.Follows begun id) :
    Does u begun s u.Has (look (·.nextBeyondNops id)) := by
  refine look_does fun a hStands => ?_
  rcases hFollows with ⟨⟨n, e₀, hNext, hThere⟩, hNop⟩
  have hSame := (hStands.alike.next?_eq id).trans hNext
  rcases hStands.alike.symm.getElem? hThere with ⟨f, hFound, hLaid⟩
  have hKind : f.isNop = e₀.isNop := eq_of_laid hLaid isNop
  have hOuter : f.outer = e₀.outer := eq_of_laid hLaid outer
  cases hIs : f.isNop with
  | false =>
    refine ⟨n, nextBeyondNops_eq_ok_iff.mpr ⟨n, f, hSame, hFound, ?_⟩, e₀, hThere⟩
    rw [if_neg (by simp [hIs])]
  | true =>
    rcases hNop n e₀ hNext hThere (hKind.symm.trans hIs) with ⟨c, hAround, hBegun⟩
    rcases hStands.exits c hBegun with ⟨x, g, hExit, hAt⟩
    refine ⟨x, nextBeyondNops_eq_ok_iff.mpr ⟨n, f, hSame, hFound, ?_⟩, g, hAt⟩
    rw [if_pos hIs]
    exact ⟨c, hOuter.trans hAround, hExit⟩

----
-- Marks
----

/-
  The state stays if only evaluations that are followed by others
  get control successors.
-/
theorem Stands.step (hStands : Stands u begun s a)
    (hAlike : u.Alike a'.unit) (hScopes : s a'.scopes)
    (hExits : ∀ c, begun' c → ∃ x e, a'.unit.exit? c = some x ∧ u.evals[x]? = some e)
    (hControl : ∀ k, ¬ (u.next? k).isSome = true → a'.unit.control? k = a.unit.control? k) :
    Stands u begun' s a' := by
  refine ⟨hAlike, hScopes, hExits, fun k e hEval hSome => ?_⟩
  by_contra hNone
  have hNext : u.next? k = e.lexicalNext := by
    rw [← hAlike.next?_eq, next?, hEval, Option.bind_some]
  have hKept := hControl k (hNext ▸ hNone)
  rw [control?, hEval] at hKept
  rcases Option.isSome_iff_exists.mp hSome with ⟨target, hTarget⟩
  rcases Option.bind_eq_some_iff.mp (hKept.symm.trans hTarget) with ⟨e₀, hEval₀, hTarget₀⟩
  have hBefore := hStands.control k e₀ hEval₀ (by rw [hTarget₀]; rfl)
  rw [← hNext, ← hStands.alike.next?_eq, next?, hEval₀] at hNone
  exact hNone hBefore

/- A mark that leaves the exits alone. -/
theorem mark_does {f : Evaluation → Evaluation} (hMarks :
      Marking { steered := fun k => (u.next? k).isSome = true } (fun s => s) (mark id f)) :
    Runs u begun s (mark id f) := by
  intro a hStands
  rcases hMarks a () _ rfl with ⟨hAdds, _⟩
  refine ⟨(), _, rfl, hStands.step (hStands.alike.trans hAdds.grows.alike) ?_ ?_
    hAdds.controls, trivial⟩
  · exact hStands.scopes
  · intro c hBegun
    rw [hAdds.exits]
    exact hStands.exits c hBegun

theorem beginBlock_does (id : EvalId) : Runs u begun s (beginBlock id) :=
  mark_does (beginBlock_marks id)

theorem unstructure_does (id : EvalId) : Runs u begun s (unstructure id) :=
  mark_does (unstructure_marks trivial)

theorem setControl_does (target : Option EvalId) (hNext : (u.next? id).isSome = true) :
    Runs u begun s (setControl id target) := mark_does (setControl_marks hNext target)

theorem setFirstControl_does (target : EvalId) (hNext : (u.next? id).isSome = true) :
    Runs u begun s (setFirstControl id target) := mark_does (setFirstControl_marks hNext target)

theorem needsBranches_does (options : FlowOptions) (hThere : u.Has id) :
    Runs u begun s (needsBranches options id) :=
  (eval_does hThere).bind fun _ _ => .pure trivial

theorem beginBlockAfter_does (hFollows : u.Follows begun id) :
    Runs u begun s (beginBlockAfter id) :=
  (nextBeyondNops_does hFollows).bind fun next _ => beginBlock_does next

----
-- Branches
----

end Analyze

/- The labels that an action refers to. -/
def Action.labels : Action → List Label
  | .assign label _ => [label]
  | a => a.branchLabels

namespace FunctionUnit

/- A label is that of an evaluation. -/
def HasLabel (u : FunctionUnit) (label : Label) : Prop :=
  ∃ t e, u.labels.find? label = some t ∧ u.evals[t]? = some e

/- What a statement refers to has begun and has statements. -/
def Refers (u : FunctionUnit) (begun : EvalId → Prop) (scopes : Scopes)
    (name : Option String) : Prop :=
  ∃ c last e, scopes.find? name = some c ∧ begun c ∧
    u.lastChild? c = some last ∧ u.evals[last]? = some e

/-
  An action can be analyzed: the labels and constructs that it
  refers to are there, and something follows it, unless it does
  nothing.
-/
structure Performs (u : FunctionUnit) (begun : EvalId → Prop) (s : Scopes → Prop) (id : EvalId)
    (act : Action) : Prop where
  follows : act = .continue ∨ u.Follows begun id
  labels : ∀ label ∈ act.labels, u.HasLabel label
  cycle : ∀ name, act = .cycle name → ∀ scopes, s scopes → u.Refers begun scopes name
  exit : ∀ name, act = .exit name → ∀ scopes, s scopes → u.Refers begun scopes name

theorem Follows.isSome (hFollows : u.Follows begun id) : (u.next? id).isSome = true := by
  rcases hFollows.next with ⟨n, e, hNext, -⟩
  rw [hNext]
  rfl

/- What is around an evaluation is an evaluation. -/
theorem Ordered.exists_outer (hOrdered : u.Ordered) (hEval : u.evals[id]? = some e)
    (hOuter : e.outer = some o) : ∃ f, u.evals[o]? = some f := by
  have hBelow : o < id := hOrdered id o (by rw [outer?, hEval, Option.bind_some, hOuter])
  have hLength := (List.getElem?_eq_some_iff.mp hEval).1
  exact ⟨_, List.getElem?_eq_getElem (Nat.lt_trans hBelow hLength)⟩

end FunctionUnit

namespace Analyze

open FunctionUnit

theorem get_does : Does u begun s (fun a => Stands u begun s a)
      (get : Analyze Analysis) := fun a hStands => ⟨a, a, rfl, hStands, hStands⟩

/- A change that leaves the evaluations alone. -/
theorem modify_does {f : Analysis → Analysis} (hEvals : ∀ a, (f a).unit.evals = a.unit.evals)
    (hAlike : ∀ a, u.Alike a.unit → u.Alike (f a).unit)
    (hScopes : ∀ a, s a.scopes → s (f a).scopes) :
    Runs u begun s (modify f : Analyze Unit) := by
  intro a hStands
  refine ⟨(), _, rfl, hStands.step (hAlike a hStands.alike) (hScopes a hStands.scopes) ?_ ?_, trivial⟩
  · intro c hBegun
    rw [exit?, hEvals]
    exact hStands.exits c hBegun
  · intro k _
    rw [control?, hEvals, control?]

theorem entered?_does (hOrdered : u.Ordered) (hTarget : u.Has target) :
    Runs u begun s (look (entered? · target)) := by
  refine look_does fun a hStands => ?_
  rcases hTarget with ⟨e₀, hEval⟩
  rcases hStands.alike.symm.getElem? hEval with ⟨e, hFound, hLaid⟩
  have hOuter : e.outer = e₀.outer := eq_of_laid hLaid outer
  have hAt : a.unit.outer? target = e.outer := by rw [outer?, hFound, Option.bind_some]
  simp only [entered?_eq_ok_iff, hAt, and_true]
  cases hAround : e.outer with
  | none => exact ⟨none, e, hFound, rfl⟩
  | some o =>
    rcases hOrdered.exists_outer hEval (hOuter.symm.trans hAround) with ⟨c₀, hConstruct⟩
    rcases hStands.alike.symm.getElem? hConstruct with ⟨c, hThere, -⟩
    by_cases hHeads : a.unit.Heads target o
    · exact ⟨_, e, hFound, c, hThere, .inl ⟨hHeads, rfl⟩⟩
    · exact ⟨_, e, hFound, c, hThere, .inr ⟨hHeads, rfl⟩⟩

theorem branchTo_does (hOrdered : u.Ordered) (hSource : (u.next? source).isSome = true)
    (hTarget : u.Has target) :
    Runs u begun s (branchTo source target) := by
  refine (unstructure_does source).bind fun _ _ => ?_
  refine (setFirstControl_does target hSource).bind fun _ _ => ?_
  refine (beginBlock_does target).bind fun _ _ => ?_
  refine get_does.bind fun _ _ => ?_
  refine (entered?_does hOrdered hTarget).bind fun entered _ => ?_
  cases entered with
  | none => exact .pure trivial
  | some c =>
    exact .ite (fun _ => .forM fun id _ => unstructure_does id) fun _ => .pure trivial

theorem labelled_does (hLabel : u.HasLabel label) :
    Does u begun s u.Has (labelled label) := by
  refine look_does fun a hStands => ?_
  rcases hLabel with ⟨t, e, hFound, hThere⟩
  refine ⟨t, orElse_eq_ok_iff.mpr ?_, e, hThere⟩
  rw [hStands.alike.labels, hFound]

theorem branchToLabel_does (hOrdered : u.Ordered) (hSource : (u.next? source).isSome = true)
    (hLabel : u.HasLabel label) :
    Runs u begun s (branchToLabel source label) :=
  (labelled_does hLabel).bind fun _ hTarget => branchTo_does hOrdered hSource hTarget

theorem loopOf_does (statement : String)
    (hRefers : ∀ scopes, s scopes → u.Refers begun scopes name) :
    Does u begun s (fun c => begun c ∧ ∃ last e,
        u.lastChild? c = some last ∧ u.evals[last]? = some e) (loopOf name statement) := by
  refine get_does.bind fun a hStands => ?_
  refine orElse_does ?_
  rcases hRefers a.scopes hStands.scopes with
    ⟨c, last, e, hFound, hBegun, hLast, hThere⟩
  refine ⟨c, ?_, hBegun, last, e, hLast, hThere⟩
  cases name <;> exact hFound

----
-- Actions
----

theorem format_does (id : EvalId) (f : Format) :
    Runs u begun s (format id f) := by
  unfold format
  split
  · exact unstructure_does id
  · exact .pure trivial

theorem ioSpec_does (hOrdered : u.Ordered) (hNext : (u.next? id).isSome = true)
    (hLabel : ∀ label, spec.branchLabel? = some label → u.HasLabel label) :
    Runs u begun s (ioSpec id spec) := by
  cases spec with
  | format f => exact format_does id f
  | other => exact .pure trivial
  | _ => exact branchToLabel_does hOrdered hNext (hLabel _ rfl)

theorem assign_does (symbol : SymbolId) (hLabel : u.HasLabel label) :
    Runs u begun s (assign label symbol) := by
  refine (labelled_does hLabel).bind fun target hTarget => ?_
  refine (eval_does hTarget).bind fun e _ => ?_
  have hLast : Runs u begun s (modify fun a =>
          { a with
            unit := { a.unit with
                assigned := a.unit.assigned.adjust symbol [] fun labels =>
                    if labels.contains label then labels
                    else (label :: labels).mergeSort } } : Analyze Unit) :=
    modify_does (fun _ => rfl) (fun _ hAlike => ⟨hAlike.evals, hAlike.outline, hAlike.labels,
        hAlike.entries, hAlike.source⟩) (fun _ hScopes => hScopes)
  split
  · exact Does.bind (p := fun _ => True) (x := Pure.pure ())
      (.pure trivial) fun _ _ => hLast
  · exact (beginBlock_does target).bind fun _ _ => hLast

theorem leave_does (hFollows : u.Follows begun id) :
    Runs u begun s (leave id) := by
  refine (unstructure_does id).bind fun _ _ => ?_
  refine (next_does hFollows).bind fun next hNext => ?_
  refine (eval_does hNext).bind fun e _ => ?_
  exact .ite (fun _ => beginBlockAfter_does hFollows) fun _ => .pure trivial

theorem action_does (hOrdered : u.Ordered) (hPerforms : u.Performs begun s id act) :
    Runs u begun s (action id act) := by
  have hFollows : act ≠ .continue → u.Follows begun id :=
    fun hOther => hPerforms.follows.resolve_left hOther
  have hNext : act ≠ .continue → (u.next? id).isSome = true :=
    fun hOther => (hFollows hOther).isSome
  have hLabels : ∀ labels : List Label, act ≠ .continue → (∀ label ∈ labels, label ∈ act.labels) →
        Runs u begun s (labels.forM (branchToLabel id)) :=
    fun labels hOther hIn => .forM fun label hMember =>
      branchToLabel_does hOrdered (hNext hOther) (hPerforms.labels label (hIn label hMember))
  cases act with
  | call returns => exact hLabels returns (by simp) fun _ hIn => hIn
  | cycle name =>
    refine (loopOf_does _ (hPerforms.cycle name rfl)).bind fun c hLoop => ?_
    rcases hLoop.2 with ⟨last, f, hLast, hThere⟩
    refine (field_does hLast).bind fun e hChildren => ?_
    exact Does.bind (orElse_does ⟨last, hChildren, f, hThere⟩) fun last hLast =>
      branchTo_does hOrdered (hNext (by simp)) hLast
  | exit name =>
    refine (loopOf_does _ (hPerforms.exit name rfl)).bind fun c hLoop => ?_
    refine (exitOf_does hLoop.1).bind fun x hExit => ?_
    exact branchTo_does hOrdered (hNext (by simp)) hExit
  | goto label =>
    exact branchToLabel_does hOrdered (hNext (by simp))
      (hPerforms.labels label (.head _))
  | computedGoto labels => exact hLabels labels (by simp) fun _ hIn => hIn
  | arithmeticIf category labels =>
    refine (hLabels labels (by simp) fun _ hIn => hIn).bind fun _ _ => ?_
    exact .ite (fun _ => mark_does (count_marks trivial _)) fun _ => .pure trivial
  | assign label symbol =>
    exact assign_does symbol (hPerforms.labels label (.head _))
  | assignedGoto =>
    exact (unstructure_does id).bind fun _ _ => beginBlockAfter_does (hFollows (by simp))
  | «return» | stop => exact leave_does (hFollows (by simp))
  | io =>
    refine Does.bind (p := fun _ => True) (.forM fun f _ => format_does id f) fun _ _ => ?_
    refine .forM fun spec hMember => ?_
    refine ioSpec_does hOrdered (hNext (by simp)) ?_
    intro label hLabel
    exact hPerforms.labels label (List.mem_filterMap.mpr ⟨spec, hMember, hLabel⟩)
  | assignment | «continue» | «if» | other => exact .pure trivial

----
-- Construct statements
----

end Analyze

/- The blocks of a loop can be counted in 64 bits. -/
def LoopControl.fits : Option LoopControl → Bool
  | some (.concurrent dims masked) => dims + dims + masked.toNat < 2 ^ 64
  | _ => true

namespace FunctionUnit

/-
  A construct statement can be analyzed: its construct has
  begun, the guard before it falls through to it if it continues
  the construct, and the end of a loop has a beginning.
-/
structure Guards (u : FunctionUnit) (begun : EvalId → Prop) (c : EvalId) (siblings : List EvalId)
    (last : Option EvalId) (id : EvalId) (g : Guard) : Prop where
  follows : u.Follows begun id
  begun : begun c
  construct : ∃ e, u.evals[c]? = some e
  chained : g.kind.isIntermediate = true → last.isSome = true
  last : u.Followed last
  loop : g.kind = .endDo → ∃ first e control, siblings[0]? = some first ∧ u.evals[first]? = some e ∧
        e.guard?.map Guard.kind = some (.do control) ∧ LoopControl.fits control = true

/-
  A construct can be analyzed: it has a last statement, and
  something follows that one, unless the end of the construct
  has code of its own.
-/
def Ends (u : FunctionUnit) (begun : EvalId → Prop) (id : EvalId) (kind : ConstructKind) : Prop :=
  ∃ last e, u.lastChild? id = some last ∧ u.evals[last]? = some e ∧
    (kind.endsWithCode = false → u.Follows begun last)

end FunctionUnit

namespace Analyze

open FunctionUnit

/- The scopes are not looked at. -/
abbrev anyScopes : Scopes → Prop := fun _ => True

theorem nameConstruct_does (g : Guard) (construct : EvalId) :
    Runs u begun anyScopes (nameConstruct g construct) :=
  modify_does (fun _ => rfl) (fun _ hAlike => hAlike) fun _ _ => trivial

theorem loops_does (f : List EvalId → List EvalId) : Runs u begun anyScopes
      (modify fun a => { a with loops := f a.loops } : Analyze Unit) :=
  modify_does (fun _ => rfl) (fun _ hAlike => hAlike) fun _ _ => trivial

theorem chain_does (id : EvalId) (hLast : last.isSome = true) (hNext : u.Followed last) :
    Runs u begun s (chain last id) := by
  refine Does.bind (p := fun l => (u.next? l).isSome = true)
    (orElse_does ?_) fun l hFollowed => setControl_does (some id) hFollowed
  rcases Option.isSome_iff_exists.mp hLast with ⟨l, hSome⟩
  exact ⟨l, hSome, hNext l hSome⟩

theorem loopBegin_does (siblings : List EvalId) (control : Option LoopControl)
    (hFollows : u.Follows begun id) :
    Runs u begun s (loopBegin siblings id control) := by
  cases control with
  | none => exact unstructure_does id
  | some control =>
    refine (beginBlockAfter_does hFollows).bind fun _ _ => ?_
    refine (setControl_does _ hFollows.isSome).bind fun _ _ => ?_
    exact .ite (fun _ => unstructure_does id) fun _ => .pure trivial

theorem concurrentBlocks_does (first id dims : Nat) (hFits : dims + dims + masked.toNat < 2 ^ 64) :
    Runs u begun s (concurrentBlocks first id dims masked) := by
  refine Does.bind (p := fun _ => True) (look_does ?_) fun count _ => ?_
  · intro _ _
    have hTwice : dims + dims < 2 ^ 64 := Nat.lt_of_le_of_lt (Nat.le_add_right _ _) hFits
    refine ⟨dims + dims + masked.toNat, ?_, trivial⟩
    rw [checkedAdd, if_pos hTwice]
    exact if_pos hFits
  · refine (mark_does (count_marks trivial _)).bind fun _ _ => mark_does ?_
    exact mark_marks (fun _ => rfl) (fun _ => rfl) (.inr fun _ => rfl)
      (fun e hBlock => by simp [hBlock]) (.inl trivial) (.inr fun _ => rfl)

theorem loopEnd_does (hKind : g.kind = .endDo) (hGuards : u.Guards begun c siblings last id g) :
    Runs u begun anyScopes (loopEnd options c siblings id) := by
  rcases hGuards.loop hKind with ⟨begins, e, control, hHead, hEval, hLoop, hFits⟩
  refine Does.bind (p := (· = begins)) (orElse_does ⟨begins, hHead, rfl⟩) fun first hFirst => ?_
  subst hFirst
  refine (setControl_does _ hGuards.follows.isSome).bind fun _ _ => ?_
  refine (loops_does List.tail).bind fun _ _ => ?_
  refine (needsBranches_does options hGuards.construct).bind fun needed _ => ?_
  refine .ite (fun _ => ?_) fun _ => .pure trivial
  refine (mark_does (count_marks trivial _)).bind fun _ _ => ?_
  refine (exitOf_does hGuards.begun).bind fun exit _ => ?_
  refine (beginBlock_does exit).bind fun _ _ => ?_
  have hKind : (u.evals[first]?).bind (fun e => e.guard?.map Guard.kind) = some (.do control) := by
    rw [hEval, Option.bind_some, hLoop]
  refine (field_does hKind).bind fun e hDo => ?_
  simp only [hDo]
  split
  · exact concurrentBlocks_does first id _ (of_decide_eq_true hFits)
  · exact .pure trivial

/-
  A construct statement. What it leaves open is a guard that is
  followed by something.
-/
theorem guard_does (hGuards : u.Guards begun c siblings last id g) :
    Does u begun anyScopes (fun r => r.isSome = g.kind.leavesOpen last.isSome ∧ u.Followed r)
      (guard options c siblings last id g) := by
  have hFollows : u.Follows begun id := hGuards.follows
  have hOwn : u.Followed (some id) := by
    rintro l ⟨⟩
    exact hFollows.isSome
  have hChain : g.kind.isIntermediate = true →
        Runs u begun anyScopes (chain last id) :=
    fun hKind => chain_does id (hGuards.chained hKind) hGuards.last
  have hName : Runs u begun anyScopes (nameConstruct g c) :=
    nameConstruct_does g c
  -- a statement that leaves what was open before it
  have hSame : (∀ opened, g.kind.leavesOpen opened = opened) →
        last.isSome = g.kind.leavesOpen last.isSome ∧ u.Followed last :=
    fun hKind => ⟨(hKind _).symm, hGuards.last⟩
  rcases g with ⟨kind, name⟩
  cases kind with
  | «do» control =>
    refine hName.bind fun _ _ => ?_
    refine (loops_does (c :: ·)).bind fun _ _ => ?_
    exact (loopBegin_does siblings control hFollows).bind fun _ _ => .pure (hSame fun _ => rfl)
  | endDo =>
    exact (loopEnd_does rfl hGuards).bind fun _ _ => .pure (hSame fun _ => rfl)
  | ifThen =>
    refine hName.bind fun _ _ => ?_
    refine (next_does hFollows).bind fun next _ => ?_
    exact (beginBlock_does next).bind fun _ _ => .pure ⟨rfl, hOwn⟩
  | elseIf =>
    refine (beginBlock_does id).bind fun _ _ => ?_
    refine (next_does hFollows).bind fun next _ => ?_
    refine (beginBlock_does next).bind fun _ _ => ?_
    exact (hChain rfl).bind fun _ _ => .pure ⟨rfl, hOwn⟩
  | «else» =>
    refine (beginBlock_does id).bind fun _ _ => ?_
    exact (hChain rfl).bind fun _ _ => .pure ⟨rfl, nofun⟩
  | endIf =>
    refine (exitOf_does hGuards.begun).bind fun exit _ => ?_
    refine (needsBranches_does options hGuards.construct).bind fun needed _ => ?_
    have hLast : Does u begun anyScopes
          (fun r => r.isSome = GuardKind.endIf.leavesOpen last.isSome ∧ u.Followed r) (do
            last.toList.forM fun l => setControl l (some exit)
            return (none : Option EvalId) : Analyze _) := by
      refine Does.bind (.forM fun l hMember => ?_) fun _ _ => .pure ⟨rfl, nofun⟩
      exact setControl_does _ (hGuards.last l (Option.mem_toList.mp hMember))
    exact .ite (fun _ => (beginBlock_does exit).bind fun _ _ => hLast) fun _ => hLast
  | selectCase | selectRank | selectType =>
    exact hName.bind fun _ _ => .pure ⟨rfl, hOwn⟩
  | case | selectRankCase | typeGuard =>
    refine (beginBlock_does id).bind fun _ _ => ?_
    exact (hChain rfl).bind fun _ _ => .pure ⟨rfl, hOwn⟩
  | endSelect =>
    refine (beginBlockAfter_does hFollows).bind fun _ _ => ?_
    refine Does.bind (.forM fun l hMember => ?_) fun _ _ => .pure ⟨rfl, nofun⟩
    refine (exitOf_does hGuards.begun).bind fun exit _ => ?_
    exact setFirstControl_does exit (hGuards.last l (Option.mem_toList.mp hMember))
  | associate | block | critical | changeTeam =>
    exact hName.bind fun _ _ => .pure (hSame fun _ => rfl)
  | endAssociate | endBlock | endCritical | endChangeTeam => exact .pure (hSame fun _ => rfl)

----
-- Constructs
----

/- The exit of a construct is set, which then has begun. -/
theorem exit_leads {x : EvalId} (hConstruct : u.Has id) (hExit : u.Has x) :
    Leads (Stands u begun s) (mark id fun e => { e with exit := some x }) fun _ =>
        Stands u (fun c => c = id ∨ begun c) s := by
  intro a hStands
  refine ⟨(), _, rfl, hStands.step (hStands.alike.modify id fun _ => rfl) hStands.scopes ?_ ?_⟩
  · intro c hBegun
    by_cases hSame : c = id
    · subst hSame
      rcases hConstruct with ⟨e₀, hEval⟩
      rcases hExit with ⟨f, hThere⟩
      rcases hStands.alike.symm.getElem? hEval with ⟨e, hFound, -⟩
      exact ⟨x, f, by simp [exit?, hFound], hThere⟩
    · rcases hStands.exits c (hBegun.resolve_left hSame) with ⟨y, f, hKnown, hThere⟩
      refine ⟨y, f, ?_, hThere⟩
      rw [← hKnown, exit?, exit?]
      simp [Ne.symm hSame]
  · intro k _
    exact exit_kept (a := a) rfl (·.bind controlNext) (fun _ _ => rfl) k

theorem construct_leads (hEnds : u.Ends begun id kind) :
    Leads (Stands u begun s) (construct id kind) fun _ =>
      Stands u (fun c => c = id ∨ begun c) s := by
  have hThere : ∃ e, u.evals[id]? = some e := by
    rcases hEnds with ⟨last, e, hLast, -⟩
    rcases Option.bind_eq_some_iff.mp hLast with ⟨c, hEval, -⟩
    exact ⟨c, hEval⟩
  have hSet : ∀ x, u.Has x → Leads (Stands u begun s) (do
            mark id fun e => { e with exit := some x }
            if kind.isSelection then unstructure id : Analyze Unit)
          fun _ => Stands u (fun c => c = id ∨ begun c) s := by
    intro x hX
    refine (exit_leads hThere hX).bind fun _ a hStands => ?_
    have hLast : Does u (fun c => c = id ∨ begun c) s (fun _ => True)
          (if kind.isSelection then unstructure id
            else Pure.pure () : Analyze Unit) :=
      .ite (fun _ => unstructure_does id) fun _ => .pure trivial
    rcases hLast a hStands with ⟨_, a', hRun, hAfter⟩
    exact ⟨_, a', hRun, hAfter.1⟩
  rcases hEnds with ⟨last, f, hChild, hAt, hFollows⟩
  refine (field_does hChild).lead fun e hFound => ?_
  refine Does.lead (p := (· = last)) (orElse_does ⟨last, hFound, rfl⟩) fun last hLast => ?_
  subst hLast
  cases hCode : kind.endsWithCode with
  | true => exact hSet last ⟨f, hAt⟩
  | false => exact (nextBeyondNops_does (hFollows hCode)).lead hSet

----
-- Beginnings
----

end Analyze

/- Whether a guard may fall through behind an evaluation. -/
def Evaluation.leavesOpen (e : Evaluation) (opened : Bool) : Bool := match e.node with
  | .guard g => g.kind.leavesOpen opened
  | _ => opened

namespace FunctionUnit

/- An evaluation can be analyzed, before what is in it. -/
structure Starts (u : FunctionUnit) (begun : EvalId → Prop) (s : Scopes → Prop)
    (parent : Option EvalId) (siblings : List EvalId) (last : Option EvalId) (id : EvalId)
    (e : Evaluation) : Prop where
  action : ∀ act, e.node = .action act → u.Performs begun s id act
  guard : ∀ g, e.node = .guard g → ∃ c, parent = some c ∧ u.Guards begun c siblings last id g
  construct : ∀ kind, e.node = .construct kind → u.Ends begun id kind
  last : u.Followed last

/- What the beginning of an evaluation leaves open. -/
structure Leaves (u : FunctionUnit) (id : EvalId) (e : Evaluation)
    (left left' : Analyze.Open) : Prop where
  guard : left'.guard.isSome = e.leavesOpen left.guard.isSome
  last : u.Followed left'.guard
  conditional : ∀ c, left'.conditional = some c →
      c = id ∧ e.isConditional = true ∨ left.conditional = some c

end FunctionUnit

namespace Analyze

open FunctionUnit

theorem Stands.weaken
    (hStands : Stands u begun s a) (hBegun : ∀ c, begun' c → begun c)
    (hScopes : ∀ scopes, s scopes → s' scopes) : Stands u begun' s' a where
  alike := hStands.alike
  scopes := hScopes _ hStands.scopes
  exits c hIn := hStands.exits c (hBegun c hIn)
  control := hStands.control

/-
  The beginning of an evaluation. A construct has begun behind
  it.
-/
theorem begin_leads (hOrdered : u.Ordered) (hEval : u.evals[id]? = some e) (hStarts :
      u.Starts begun s parent siblings left.guard id e) :
    Leads (Stands u begun s) (begin options parent siblings left id) fun left' a' =>
        Stands u (fun c => c = id ∧ e.isConstruct = true ∨ begun c) anyScopes a' ∧
        u.Leaves id e left left' := by
  intro a hStands
  rcases hStands.alike.symm.getElem? hEval with ⟨f, hFound, hLaid⟩
  have hNode : f.node = e.node := Evaluation.eq_of_laid hLaid Evaluation.node
  unfold begin
  rw [bind_of_ok (look_of_ok (eval_eq_ok_iff.mpr hFound)) rfl, hNode]
  have hAny : Stands u begun anyScopes a :=
    hStands.weaken (fun _ hIn => hIn) fun _ _ => trivial
  -- all but a construct leave what has begun
  have hSame : e.isConstruct = false →
        (fun c => c = id ∧ e.isConstruct = true ∨ begun c) = begun := by
    intro hOther
    simp [hOther]
  cases hIs : e.node with
  | action act =>
    rw [hSame (by rw [Evaluation.isConstruct, hIs])]
    refine Leads.bind (action_does hOrdered (hStarts.action act hIs))
      (fun _ a₁ hStep => ?_) a hStands
    have hKept : Stands u begun anyScopes a₁ :=
      hStep.1.weaken (fun _ hIn => hIn) fun _ _ => trivial
    have hOpen : ∀ opened, e.leavesOpen opened = opened := by
      intro opened
      rw [Evaluation.leavesOpen, hIs]
    cases act with
    | «if» inner =>
      refine ⟨_, a₁, rfl, hKept, (hOpen _).symm, hStarts.last, ?_⟩
      rintro c ⟨⟩
      exact .inl ⟨rfl, by rw [Evaluation.isConditional, hIs]⟩
    | _ =>
      exact ⟨left, a₁, rfl, hKept, (hOpen _).symm, hStarts.last, fun c hSome => .inr hSome⟩
  | guard g =>
    rw [hSame (by rw [Evaluation.isConstruct, hIs])]
    refine Does.lead (p := fun c => u.Guards begun c siblings left.guard id g)
      (orElse_does (hStarts.guard g hIs)) (fun c hGuards => ?_) a hAny
    refine (guard_does hGuards).lead fun last hLast b hB => ?_
    refine ⟨_, b, rfl, hB, ?_, hLast.2, fun c hSome => .inr hSome⟩
    rw [Evaluation.leavesOpen, hIs]
    exact hLast.1
  | construct kind =>
    refine Leads.bind (construct_leads (hStarts.construct kind hIs))
      (fun _ a₁ hStep => ?_) a hAny
    refine ⟨left, a₁, rfl, hStep.weaken ?_ fun _ hIn => hIn, ?_, hStarts.last,
      fun c hSome => .inr hSome⟩
    · exact fun c hIn => hIn.imp_left fun hBoth => hBoth.1
    · rw [Evaluation.leavesOpen, hIs]
  | nonExecutable _ | directive _ =>
    rw [hSame (by rw [Evaluation.isConstruct, hIs])]
    refine ⟨left, a, rfl, hAny, ?_, hStarts.last, fun c hSome => .inr hSome⟩
    rw [Evaluation.leavesOpen, hIs]

----
-- Ends
----

theorem finishConditional_does (hThere : u.Has id)
    (hFollows : u.Follows begun id) (hNext : (u.next? c).isSome = true) :
    Runs u begun s (finishConditional options id c) := by
  have hLast : Runs u begun s (do
        setControl c (some (← look (·.nextBeyondNops id))) : Analyze Unit) :=
    (nextBeyondNops_does hFollows).bind fun next _ => setControl_does (some next) hNext
  refine (needsBranches_does options hThere).bind fun needed _ => ?_
  refine .ite (fun _ => ?_) fun _ => hLast
  refine (beginBlock_does id).bind fun _ _ => ?_
  refine (beginBlockAfter_does hFollows).bind fun _ _ => ?_
  exact (unstructure_does c).bind fun _ _ => hLast

end Analyze

/-
  An evaluation can be analyzed behind what is in it: something
  follows the action of an `if`, and the last statement of an
  arm is in a construct.
-/
structure FunctionUnit.Stops (u : FunctionUnit) (begun : EvalId → Prop) (parent : Option EvalId)
    (conditional : Option EvalId) (id : EvalId) : Prop where
  follows : (u.next? id).isSome = true → u.Follows begun id
  conditional : ∀ c, conditional = some c → c ≠ id →
      (u.next? id).isSome = true ∧ (u.next? c).isSome = true
  arm : ∀ n e, u.next? id = some n → u.evals[n]? = some e → e.isIntermediate = true →
      ∃ p f, parent = some p ∧ u.evals[p]? = some f

namespace Analyze

open FunctionUnit

theorem leaveArm_does (hThere : u.Has id)
    (hStops : u.Stops begun parent conditional id) :
    Runs u begun s (leaveArm parent id) := by
  refine (eval_does hThere).bind fun e hFound => ?_
  have hNext : ∀ n, e.lexicalNext = some n → u.next? id = some n := by
    intro n hSome
    rcases hFound.1 with ⟨e₀, hEval, hLaid⟩
    have hSame : e.lexicalNext = e₀.lexicalNext :=
      eq_of_laid hLaid lexicalNext
    rw [next?, hEval, Option.bind_some, ← hSame, hSome]
  split
  · rename_i n _ hSome
    have hFollows : u.Follows begun id := hStops.follows (by rw [hNext n hSome]; rfl)
    refine Does.bind (eval_does ?_) fun f hNow => ?_
    · rcases hFollows.next with ⟨m, g, hIs, hAt⟩
      rw [hNext n hSome, Option.some.injEq] at hIs
      exact ⟨g, hIs ▸ hAt⟩
    refine .ite (fun hArm => ?_) fun _ => .pure trivial
    refine Does.bind (p := fun c => u.Has c)
      (orElse_does ?_) fun c hOuter => ?_
    · rcases hNow.1 with ⟨f₀, hEval, hLaid⟩
      have hSame : f.isIntermediate = f₀.isIntermediate :=
        eq_of_laid hLaid isIntermediate
      rcases hStops.arm n f₀ (hNext n hSome) hEval (hSame ▸ hArm) with ⟨p, g, hParent, hAt⟩
      exact ⟨p, hParent, g, hAt⟩
    · refine (eval_does hOuter).bind fun construct _ => ?_
      refine (setControl_does _ hFollows.isSome).bind fun _ _ => ?_
      exact beginBlock_does n
  · exact .pure trivial

/- No `if` is left open but the evaluation itself. -/
def Open.Closes (left : Open) (id : EvalId) (left' : Open) : Prop := left'.guard = left.guard ∧
    ∀ c, left'.conditional = some c → c = id ∧ left.conditional = some c

/- The end of an evaluation. -/
theorem finish_does (hThere : u.Has id) (hStops : u.Stops begun parent left.conditional id) :
    Does u begun s (left.Closes id) (finish options parent left id) := by
  have hReturn : Does u begun s (left.Closes id)
        (if (left.conditional.filter fun c => c ≠ id).isSome then
          Pure.pure { left with conditional := none }
        else Pure.pure left : Analyze Open) := by
    refine .ite (fun _ => .pure ⟨rfl, by simp⟩) fun hNone => ?_
    refine .pure ⟨rfl, fun c hSome => ⟨?_, hSome⟩⟩
    by_contra hOther
    exact hNone (by simp [hSome, hOther])
  refine Does.bind (p := fun _ => True) (.forM fun c hMember => ?_) fun _ _ => ?_
  · rw [Option.mem_toList, Option.filter_eq_some_iff] at hMember
    have hOther : c ≠ id := of_decide_eq_true hMember.2
    have hBoth := hStops.conditional c hMember.1 hOther
    exact finishConditional_does hThere (hStops.follows hBoth.1) hBoth.2
  refine (leaveArm_does hThere hStops).bind fun _ _ => ?_
  refine (eval_does hThere).bind fun e hFound => ?_
  have hLast : Does u begun s (left.Closes id) (do
          if e.controlNext.isSome && e.isAction && e.needsBranches options then beginBlockAfter id
          if (left.conditional.filter fun c => c ≠ id).isSome then
            return { left with conditional := none }
          else
            return left : Analyze Open) := by
    refine .ite (fun hCond => ?_) fun _ => hReturn
    refine (beginBlockAfter_does ?_).bind fun _ _ => hReturn
    rw [Bool.and_eq_true, Bool.and_eq_true] at hCond
    rcases hFound.1 with ⟨e₀, hEval, hLaid⟩
    have hSame : e.lexicalNext = e₀.lexicalNext :=
      eq_of_laid hLaid lexicalNext
    refine hStops.follows ?_
    rw [next?, hEval, Option.bind_some, ← hSame]
    exact hFound.2 hCond.1.1
  refine .ite (fun _ => ?_) fun _ => hLast
  exact Does.bind (.forM fun p _ => unstructure_does p) fun _ _ => hLast

end Analyze

end FortranIR
