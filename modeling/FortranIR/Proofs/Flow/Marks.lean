import FortranIR.Flow.Branch
import FortranIR.Proofs.Edit
import FortranIR.Proofs.Flow.Layout

/-
  This file states what the steps of the analysis of branches
  can change.

  Marks are only added, and the layout of the unit is kept. The
  names and loops that a branch may refer to are those of the
  construct statements before it, in the order of the source.

  Main declarations:
    * `FunctionUnit.Alike`
    * `Analyze.finish_notes`
-/

namespace FortranIR

open Evaluation

variable {e : Evaluation} {v u : FunctionUnit} {α β : Type} {f : Evaluation → Option α}

----
-- Layouts
----

/- Evaluations with the same layout agree in all that it shows. -/
theorem Evaluation.eq_of_laid (hSame : e.laid = e'.laid) (f : Evaluation → α)
    (hLaid : ∀ e, f e.laid = f e := by exact fun _ => rfl) : f e = f e' := by rw [← hLaid e, hSame, hLaid]

namespace FunctionUnit

/- A unit that differs by what the analysis finds out only. -/
structure Alike (u v : FunctionUnit) : Prop where
  evals : v.evals.map Evaluation.laid = u.evals.map Evaluation.laid
  outline : v.outline = u.outline
  labels : v.labels = u.labels
  entries : v.entries = u.entries
  source : v.source = u.source

theorem Alike.refl (u : FunctionUnit) : u.Alike u := ⟨rfl, rfl, rfl, rfl, rfl⟩

/- What follows an evaluation in the order of execution. -/
def next? (u : FunctionUnit) (id : EvalId) : Option EvalId :=
  (u.evals[id]?).bind Evaluation.lexicalNext

section

variable (hAlike : u.Alike v)
include hAlike

theorem Alike.trans (hNext : v.Alike w) : u.Alike w :=
  ⟨hNext.evals.trans hAlike.evals, hNext.outline.trans hAlike.outline,
    hNext.labels.trans hAlike.labels, hNext.entries.trans hAlike.entries,
    hNext.source.trans hAlike.source⟩

theorem Alike.symm : v.Alike u := ⟨hAlike.evals.symm, hAlike.outline.symm, hAlike.labels.symm,
    hAlike.entries.symm, hAlike.source.symm⟩

theorem Alike.getElem? {id : EvalId} (hEval : v.evals[id]? = some e) :
    ∃ e₀, u.evals[id]? = some e₀ ∧ e₀.laid = e.laid := by
  have hSame := congrArg (·[id]?) hAlike.evals
  simp only [List.getElem?_map, hEval, Option.map_some] at hSame
  exact Option.map_eq_some_iff.mp hSame.symm

theorem Alike.length_eq : v.evals.length = u.evals.length := by
  simpa using congrArg List.length hAlike.evals

/- A mark leaves the layout of a unit alone. -/
theorem Alike.modify (id : EvalId) {f : Evaluation → Evaluation}
    (hLaid : ∀ e, (f e).laid = e.laid) : u.Alike { v with evals := v.evals.modify id f } := by
  refine ⟨Eq.trans (List.ext_getElem? fun k => ?_) hAlike.evals,
    hAlike.outline, hAlike.labels, hAlike.entries, hAlike.source⟩
  simp only [List.getElem?_map, List.getElem?_modify]
  cases v.evals[k]? with
  | none => rfl
  | some e => by_cases hSame : id = k <;> simp [hSame, hLaid]

/- What is read from the layouts of evaluations stays. -/
theorem Alike.map_eq {f : Evaluation → α} (hLaid : ∀ e, f e.laid = f e) :
    v.evals.map f = u.evals.map f := by
  have hSame := congrArg (List.map f) hAlike.evals
  simpa only [List.map_map, Function.comp_def, hLaid] using hSame

theorem Alike.bind_eq (hLaid : ∀ e, f e.laid = f e) (id : EvalId) :
    (v.evals[id]?).bind f = (u.evals[id]?).bind f := by
  have hSame := congrArg (fun es => (es[id]?).bind f) hAlike.evals
  simpa only [List.getElem?_map, Option.bind_map, Function.comp_def, hLaid] using hSame

theorem Alike.next?_eq (id : EvalId) : v.next? id = u.next? id := hAlike.bind_eq (fun _ => rfl) id

end

----
-- Marks
----

/- The evaluation is marked as one that needs branches. -/
def unstructured (u : FunctionUnit) (id : EvalId) : Bool :=
  (u.evals[id]?).any Evaluation.isUnstructured

/- The exit of a construct, if it is known. -/
def exit? (u : FunctionUnit) (id : EvalId) : Option EvalId := (u.evals[id]?).bind Evaluation.exit

/- The control successor of an evaluation, if it has one. -/
def control? (u : FunctionUnit) (id : EvalId) : Option EvalId :=
  (u.evals[id]?).bind Evaluation.controlNext

/-
  A unit comes from another one by marks and exits that are
  added, while its statements stay where they are.
-/
structure Grows (u v : FunctionUnit) : Prop where
  alike : u.Alike v
  exits : ∀ k x, u.exit? k = some x → v.exit? k = some x
  flags : ∀ k, u.unstructured k = true → v.unstructured k = true

theorem Grows.refl (u : FunctionUnit) : u.Grows u :=
  ⟨.refl u, fun _ _ hExit => hExit, fun _ hFlag => hFlag⟩

theorem Grows.trans (hFirst : u.Grows v) (hSecond : v.Grows w) : u.Grows w where
  alike := hFirst.alike.trans hSecond.alike
  exits k x hExit := hSecond.exits k x (hFirst.exits k x hExit)
  flags k hFlag := hSecond.flags k (hFirst.flags k hFlag)

/- An evaluation is still there, at the same place. -/
theorem Grows.getElem? (hGrows : u.Grows v) {id : EvalId} (hEval : u.evals[id]? = some e) :
    ∃ e', v.evals[id]? = some e' ∧ e'.fixed = e.fixed := by
  rcases hGrows.alike.symm.getElem? hEval with ⟨e', hEval', hLaid⟩
  exact ⟨e', hEval', eq_of_laid hLaid fixed⟩

/- The evaluation begins a block. -/
def beginsBlock (u : FunctionUnit) (id : EvalId) : Bool := (u.evals[id]?).any Evaluation.isNewBlock

/- The number of extra blocks of an evaluation. -/
def extraBlocks? (u : FunctionUnit) (id : EvalId) : Option Nat :=
  (u.evals[id]?).map Evaluation.localBlocks

end FunctionUnit

/-
  The evaluations that steps may mark, that they may count extra
  blocks for and give control successors to, and the targets of
  branches into constructs.
-/
structure Licence where
  own : EvalId → Prop := fun _ => True
  counted : EvalId → Prop := fun _ => True
  steered : EvalId → Prop := fun _ => True
  targets : EvalId → Prop := fun _ => True

/- Nothing is marked. -/
def Licence.none : Licence := ⟨fun _ => False, fun _ => False, fun _ => False, fun _ => False⟩

variable {p : Licence}

namespace FunctionUnit

/-
  A unit comes from another one by marks of evaluations that may
  be marked, get extra blocks, or get control successors. Blocks
  are added.
-/
structure Adds (p : Licence) (u v : FunctionUnit) : Prop where
  grows : u.Grows v
  exits : ∀ k, v.exit? k = u.exit? k
  blocks : ∀ k, u.beginsBlock k = true → v.beginsBlock k = true
  counts : ∀ k, ¬ p.counted k → v.extraBlocks? k = u.extraBlocks? k
  controls : ∀ k, ¬ p.steered k → v.control? k = u.control? k
  flags : ∀ k, v.unstructured k = true → u.unstructured k = true ∨ p.own k

/- Marks are those of the evaluations. -/
theorem Adds.of_evals (hEvals : v.evals = u.evals) (hAlike : u.Alike v) :
    Adds p u v := by
  have hFlags : ∀ k, v.unstructured k = u.unstructured k :=
    fun k => by rw [unstructured, unstructured, hEvals]
  have hExits : ∀ k, v.exit? k = u.exit? k := fun k => by rw [exit?, exit?, hEvals]
  refine ⟨⟨hAlike, ?_, ?_⟩, hExits, ?_, ?_, ?_, ?_⟩
  · exact fun k e hExit => (hExits k).trans hExit
  · exact fun k hFlag => (hFlags k).trans hFlag
  · exact fun k hBlock => by rwa [beginsBlock, hEvals]
  · exact fun k _ => by rw [extraBlocks?, extraBlocks?, hEvals]
  · exact fun k _ => by rw [control?, control?, hEvals]
  · exact fun k hFlag => .inl ((hFlags k).symm.trans hFlag)

theorem Adds.trans (hFirst : Adds p u v) (hSecond : Adds p v w) : Adds p u w where
  grows := hFirst.grows.trans hSecond.grows
  exits k := (hSecond.exits k).trans (hFirst.exits k)
  blocks k hBlock := hSecond.blocks k (hFirst.blocks k hBlock)
  counts k hOut := (hSecond.counts k hOut).trans (hFirst.counts k hOut)
  controls k hOut := (hSecond.controls k hOut).trans (hFirst.controls k hOut)
  flags k hFlag := (hSecond.flags k hFlag).elim (hFirst.flags k) .inr

theorem eval_eq_ok_iff {id : EvalId} : u.eval id = .ok e ↔ u.evals[id]? = some e :=
  orElse_eq_ok_iff

/- Something that an evaluation has is looked up. -/
theorem field_eq_ok_iff {fault : Fault} {id : EvalId} {r : α} :
    (do fault.orElse (f (← u.eval id))) = .ok r ↔ (u.evals[id]?).bind f = some r := by
  simp only [bind_eq_ok_iff, eval_eq_ok_iff, orElse_eq_ok_iff, Option.bind_eq_some_iff]

theorem next_eq_ok_iff {id : EvalId} : u.next id = .ok n ↔ u.next? id = some n := field_eq_ok_iff

theorem exitOf_eq_ok_iff : u.exitOf c = .ok x ↔ u.exit? c = some x := field_eq_ok_iff

theorem nextBeyondNops_eq_ok_iff {id : EvalId} : u.nextBeyondNops id = .ok x ↔ ∃ n e,
      u.next? id = some n ∧ u.evals[n]? = some e ∧
      if e.isNop then ∃ c, e.outer = some c ∧ u.exit? c = some x else x = n := by
  unfold nextBeyondNops
  simp only [bind_eq_ok_iff, next_eq_ok_iff, eval_eq_ok_iff, ← exists_and_left]
  refine exists_congr fun n => exists_congr fun e => and_congr_right fun _ => ?_
  split
  · simp only [bind_eq_ok_iff, orElse_eq_ok_iff, exitOf_eq_ok_iff]
  · simp [pure, Except.pure, eq_comm]

end FunctionUnit

----
-- Scopes
----

/-
  The constructs that a statement may refer to: by their names,
  the latest one first, and the loops that are open, the
  innermost one first.
-/
structure Scopes where
  names : List (String × EvalId) := []
  loops : List EvalId := []

variable {f : Scopes → Scopes}

/- The first statement of a construct, which may name it. -/
def GuardKind.begins : GuardKind → Bool
  | .do _ => true
  | .ifThen => true
  | .selectCase => true
  | .selectRank => true
  | .selectType => true
  | .associate => true
  | .block => true
  | .critical => true
  | .changeTeam => true
  | _ => false

/- The first or the last statement of a loop. -/
def GuardKind.boundsLoop : GuardKind → Bool
  | .do _ => true
  | .endDo => true
  | _ => false

/- The label that a specifier may branch to. -/
def IoSpec.branchLabel? : IoSpec → Option Label
  | .err label => some label
  | .eor label => some label
  | .finish label => some label
  | _ => none

/- The construct that an action refers to. -/
def Action.reference? : Action → Option (Option String)
  | .cycle name => some name
  | .exit name => some name
  | _ => none

/- The labels that an action may branch to. -/
def Action.branchLabels : Action → List Label
  | .call returns => returns
  | .goto label => [label]
  | .computedGoto labels => labels
  | .arithmeticIf _ labels => labels
  | .io _ _ specs => specs.filterMap IoSpec.branchLabel?
  | _ => []

namespace Scopes

/- What may be referred to behind a statement of a construct. -/
def afterGuard (g : Guard) (construct : EvalId) (s : Scopes) : Scopes where
  names := if g.kind.begins then (g.construct.map fun n => (n, construct)).toList ++ s.names
    else s.names
  loops := match g.kind with
    | .do _ => construct :: s.loops
    | .endDo => s.loops.tail
    | _ => s.loops

/- What may be referred to behind an evaluation. -/
def after (s : Scopes) (e : Evaluation) : Scopes := match e.node, e.outer with
  | .guard g, some construct => s.afterGuard g construct
  | _, _ => s

end Scopes

/- What may be referred to at an evaluation. -/
def FunctionUnit.scopesBefore (u : FunctionUnit) (id : EvalId) : Scopes :=
  (u.evals.take id).foldl Scopes.after {}

/- Scopes depend on the statements and their places only. -/
theorem Scopes.after_congr {f : Evaluation} (hSame : e.fixed = f.fixed) (s : Scopes) :
    s.after e = s.after f := by
  simp only [fixed, Prod.mk.injEq] at hSame
  rw [Scopes.after, Scopes.after, hSame.1, hSame.2.1]

theorem Scopes.foldl_after_congr {es fs : List Evaluation}
    (hSame : es.map fixed = fs.map fixed) (s : Scopes) :
    es.foldl Scopes.after s = fs.foldl Scopes.after s := by
  induction es generalizing fs s with
  | nil =>
    cases fs with
    | nil => rfl
    | cons f fs => simp at hSame
  | cons e es ih =>
    cases fs with
    | nil => simp at hSame
    | cons f fs =>
      rw [List.map_cons, List.map_cons, List.cons.injEq] at hSame
      rw [List.foldl_cons, List.foldl_cons, Scopes.after_congr hSame.1, ih hSame.2]

namespace FunctionUnit

theorem Grows.scopesBefore_eq (hGrows : u.Grows v) (id : EvalId) :
    v.scopesBefore id = u.scopesBefore id := by
  apply Scopes.foldl_after_congr
  rw [List.map_take, List.map_take, hGrows.alike.map_eq fun _ => rfl]

/- A statement adds its own scopes. -/
theorem scopesBefore_succ {id : EvalId} (hEval : u.evals[id]? = some e) :
    u.scopesBefore (id + 1) = (u.scopesBefore id).after e := by
  unfold scopesBefore
  rw [List.take_add_one, hEval, Option.toList_some, List.foldl_append,
    List.foldl_cons, List.foldl_nil]

end FunctionUnit

/- The scopes that the analysis has found so far. -/
def Analysis.scopes (a : Analysis) : Scopes := ⟨a.names, a.loops⟩

----
-- Steps
----

namespace Analyze

open FunctionUnit

variable {y : α → Analyze β} {x : Analyze α}
variable {id' : EvalId} {a a' : Analysis} {r : α}
variable (options : FlowOptions) (parent : Option EvalId)

/- A step, by what it marks and does to the scopes. -/
def Marking (p : Licence) (f : Scopes → Scopes) (x : Analyze α) : Prop :=
  ∀ a r a', x a = .ok r a' → Adds p a.unit a'.unit ∧ a'.scopes = f a.scopes

/- A step, by what it does to the scopes. -/
abbrev Notes (f : Scopes → Scopes) (x : Analyze α) : Prop :=
  Marking {} f x

theorem Notes.grows (hNotes : Notes f x) (hRun : x a = .ok r a') : a.unit.Grows a'.unit :=
  (hNotes a r a' hRun).1.grows

/- A step that leaves the evaluations and the layout alone. -/
theorem Marking.of_evals (hKept : ∀ a r a', x a = .ok r a' → a'.unit.evals = a.unit.evals ∧
      a.unit.Alike a'.unit ∧ a'.scopes = f a.scopes) : Marking p f x := by
  intro a r a' hRun
  rcases hKept a r a' hRun with ⟨hEvals, hAlike, hScopes⟩
  exact ⟨.of_evals hEvals hAlike, hScopes⟩

theorem Marking.pure (r : α) : Marking p id (pure r : Analyze α) := by
  refine .of_evals fun a r a' hRun => ?_
  cases hRun
  exact ⟨rfl, .refl _, rfl⟩

theorem Marking.bind (hFirst : Marking p f x) (hRest : ∀ r, Marking p g (y r)) :
    Marking p (g ∘ f) (x >>= y) := by
  intro a r a' hRun
  rcases bind_eq_ok hRun with ⟨s, a₁, hX, hY⟩
  rcases hFirst a s a₁ hX with ⟨hAdds, hScopes⟩
  rcases hRest s a₁ r a' hY with ⟨hAdds', hScopes'⟩
  exact ⟨hAdds.trans hAdds', hScopes'.trans (congrArg g hScopes)⟩

/- Steps that leave the scopes alone, one after another. -/
theorem Marking.quiet_bind (hFirst : Marking p id x) (hRest : ∀ r, Marking p id (y r)) :
    Marking p id (x >>= y) := hFirst.bind hRest

theorem Marking.forM {xs : List α} {f : α → Analyze Unit} (hEach : ∀ x ∈ xs, Marking p id (f x)) :
    Marking p id (xs.forM f) :=
  forM_of_each (.pure ()) (fun _ _ hX hY => hX.quiet_bind fun _ => hY) hEach

theorem Marking.ite {cond : Prop} [Decidable cond] {y : Analyze α}
    (hThen : Marking p f x) (hElse : Marking p f y) :
    Marking p f (if cond then x else y) := by
  split
  · exact hThen
  · exact hElse

theorem get_marks : Marking p id (get : Analyze Analysis) := by
  refine .of_evals fun a r a' hRun => ?_
  cases hRun
  exact ⟨rfl, .refl _, rfl⟩

theorem look_eq_ok {f : FunctionUnit → Except Fault α} (hRun : look f a = .ok r a') :
    f a.unit = .ok r ∧ a' = a := by
  rcases bind_eq_ok hRun with ⟨_, _, hGet, hRest⟩
  cases hGet
  cases hFound : f a.unit with
  | ok x =>
    simp only [hFound] at hRest
    cases hRest
    exact ⟨rfl, rfl⟩
  | error e =>
    simp only [hFound] at hRest
    cases hRest

/- A lookup, and what follows it. -/
theorem look_bind_eq_ok {f : FunctionUnit → Except Fault α}
    (hRun : (look f >>= y) a = .ok s a') : ∃ r, f a.unit = .ok r ∧ y r a = .ok s a' := by
  rcases bind_eq_ok hRun with ⟨r, _, hLook, hRest⟩
  rcases look_eq_ok hLook with ⟨hFound, rfl⟩
  exact ⟨r, hFound, hRest⟩

theorem look_marks (f : FunctionUnit → Except Fault α) :
    Marking p id (look f) := by
  refine .of_evals fun a r a' hRun => ?_
  rcases look_eq_ok hRun with ⟨-, rfl⟩
  exact ⟨rfl, .refl _, rfl⟩

/- Something that does not depend on the unit, and what follows. -/
theorem given_marks {fault : Fault} {given : Option α} {f : Scopes → Scopes}
    (hRest : ∀ r, given = some r → Marking p f (y r)) :
    Marking p f (look (fun _ => fault.orElse given) >>= y) := by
  intro a r a' hRun
  rcases look_bind_eq_ok hRun with ⟨s, hFound, hNext⟩
  exact hRest s (orElse_eq_ok_iff.mp hFound) _ r a' hNext

theorem mark_marks {f : Evaluation → Evaluation} (hLaid : ∀ e, (f e).laid = e.laid)
    (hExit : ∀ e, (f e).exit = e.exit) (hFlag : p.own id' ∧ (∀ e, (f e).isUnstructured = true) ∨
      ∀ e, (f e).isUnstructured = e.isUnstructured)
    (hBlock : ∀ e, e.isNewBlock = true → (f e).isNewBlock = true)
    (hCount : p.counted id' ∨ ∀ e, (f e).localBlocks = e.localBlocks)
    (hControl : p.steered id' ∨ ∀ e, (f e).controlNext = e.controlNext) :
    Marking p id (mark id' f) := by
  intro a r a' hRun
  cases hRun
  have hKept : ∀ {γ : Type} (g : Option Evaluation → γ) (k : EvalId),
      (id' = k → ∀ e, g (some (f e)) = g (some e)) →
      g (a.unit.evals.modify id' f)[k]? = g a.unit.evals[k]? := by
    intro γ g k hSame
    rw [List.getElem?_modify]
    cases a.unit.evals[k]? with
    | none => rfl
    | some e => by_cases hAt : id' = k <;> simp [hAt, hSame]
  have hAny : ∀ (g : Evaluation → Bool) (k : EvalId), (∀ e, g e = true → g (f e) = true) →
      a.unit.evals[k]?.any g = true → (a.unit.evals.modify id' f)[k]?.any g = true := by
    intro g k hMore hBefore
    rw [List.getElem?_modify]
    cases hEval : a.unit.evals[k]? with
    | none =>
      rw [hEval] at hBefore
      cases hBefore
    | some e =>
      rw [hEval] at hBefore
      by_cases hSame : id' = k
      · simpa [hSame] using hMore e hBefore
      · simpa [hSame] using hBefore
  have hExits := fun k => hKept (·.bind exit) k fun _ => hExit
  refine ⟨⟨⟨(Alike.refl _).modify id' hLaid, fun k x => (hExits k).trans, fun k => ?_⟩, hExits,
    fun k => hAny _ k hBlock, fun k hOut => ?_, fun k hOut => ?_, fun k hMarked => ?_⟩, rfl⟩
  · refine hAny _ k fun e hSet => ?_
    rcases hFlag with ⟨-, hAll⟩ | hSame
    · exact hAll e
    · exact (hSame e).trans hSet
  · refine hKept (·.map localBlocks) k fun hSame e => congrArg some ?_
    exact hCount.resolve_left (fun hIn => hOut (hSame ▸ hIn)) e
  · refine hKept (·.bind controlNext) k fun hSame e => ?_
    exact hControl.resolve_left (fun hIn => hOut (hSame ▸ hIn)) e
  · rcases hFlag with ⟨hOwn, -⟩ | hSame
    · by_cases hAt : id' = k
      · exact .inr (hAt ▸ hOwn)
      · exact .inl ((hKept (·.any _) k fun hSame => absurd hSame hAt).symm.trans hMarked)
    · exact .inl ((hKept (·.any _) k fun _ => hSame).symm.trans hMarked)

/- A mark that only sets the number of extra blocks. -/
theorem count_marks (hCounted : p.counted id') (count : Evaluation → Nat) :
    Marking p id (mark id' fun e => { e with localBlocks := count e }) :=
  mark_marks (fun _ => rfl) (fun _ => rfl) (.inr fun _ => rfl) (fun _ hBlock => hBlock)
    (.inl hCounted) (.inr fun _ => rfl)

theorem beginBlock_marks (id' : EvalId) : Marking p id (beginBlock id') :=
  mark_marks (fun _ => rfl) (fun _ => rfl) (.inr fun _ => rfl) (fun _ _ => rfl) (.inr fun _ => rfl)
    (.inr fun _ => rfl)

theorem setControl_marks (hSteered : p.steered id') (target : Option EvalId) :
    Marking p id (setControl id' target) :=
  mark_marks (fun _ => rfl) (fun _ => rfl) (.inr fun _ => rfl) (fun _ hBlock => hBlock)
    (.inr fun _ => rfl) (.inl hSteered)

theorem setFirstControl_marks (hSteered : p.steered id') (target : EvalId) :
    Marking p id (setFirstControl id' target) :=
  mark_marks (fun _ => rfl) (fun _ => rfl) (.inr fun _ => rfl) (fun _ hBlock => hBlock)
    (.inr fun _ => rfl) (.inl hSteered)

theorem unstructure_marks (hOwn : p.own id') : Marking p id (unstructure id') :=
  mark_marks (fun _ => rfl) (fun _ => rfl) (.inl ⟨hOwn, fun _ => rfl⟩) (fun _ hBlock => hBlock)
    (.inr fun _ => rfl) (.inr fun _ => rfl)

theorem needsBranches_marks (id' : EvalId) :
    Marking p id (needsBranches options id') :=
  (look_marks _).quiet_bind fun _ => .pure _

theorem beginBlockAfter_marks (id' : EvalId) :
    Marking p id (beginBlockAfter id') :=
  (look_marks _).quiet_bind fun next => beginBlock_marks next

----
-- Actions
----

/- The steps of a branch behind its source. -/
theorem target_marks (hOwn : ∀ k, p.own k) (source target : EvalId) :
    Marking p id (do
      beginBlock target
      let u := (← get).unit
      match ← look (entered? · target) with
      | none => return
      | some construct =>
        if !(u.ancestors source).contains construct then
          (target :: u.ancestors target).forM unstructure : Analyze Unit) := by
  refine (beginBlock_marks target).quiet_bind fun _ => ?_
  refine get_marks.quiet_bind fun a => ?_
  refine (look_marks _).quiet_bind fun found => ?_
  cases found with
  | none => exact .pure ()
  | some construct =>
    exact .ite (.forM fun id' _ => unstructure_marks (hOwn id')) (.pure ())

/- A branch may mark anything, and gives its source a successor. -/
theorem branchTo_marks (hOwn : ∀ k, p.own k) {source : EvalId} (hSteered : p.steered source)
    (target : EvalId) : Marking p id (branchTo source target) := by
  refine (unstructure_marks (hOwn source)).quiet_bind fun _ => ?_
  refine (setFirstControl_marks hSteered target).quiet_bind fun _ => ?_
  exact target_marks hOwn source target

theorem branchToLabel_marks (hOwn : ∀ k, p.own k) {source : EvalId} (hSteered : p.steered source)
    (label : Label) : Marking p id (branchToLabel source label) :=
  (look_marks _).quiet_bind fun target => branchTo_marks hOwn hSteered target

theorem loopOf_marks (name : Option String) (statement : String) :
    Marking p id (loopOf name statement) :=
  get_marks.quiet_bind fun _ => look_marks _

theorem format_marks (hOwn : p.own id') (f : Format) :
    Marking p id (format id' f) := by
  unfold format
  split
  · exact unstructure_marks hOwn
  · exact .pure ()

theorem ioSpec_marks (hOwn : ∀ k, p.own k) (spec : IoSpec)
    (hSteered : spec.branchLabel? ≠ none → p.steered id') : Marking p id (ioSpec id' spec) := by
  cases spec with
  | err label | eor label | finish label => exact branchToLabel_marks hOwn (hSteered nofun) label
  | format f => exact format_marks (hOwn id') f
  | other => exact .pure ()

theorem assign_marks (label : Label) (symbol : SymbolId) :
    Marking p id (assign label symbol) := by
  refine (look_marks _).quiet_bind fun target => ?_
  refine (look_marks _).quiet_bind fun e => ?_
  have hRecord : ∀ f : Analysis → Analysis, (∀ a, (f a).unit.evals = a.unit.evals ∧
      a.unit.Alike (f a).unit ∧ (f a).scopes = a.scopes) →
      Marking p id (modify f : Analyze Unit) := by
    intro f hKept
    refine .of_evals fun a r a' hRun => ?_
    cases hRun
    exact hKept a
  split
  · exact hRecord _ fun _ => ⟨rfl, ⟨rfl, rfl, rfl, rfl, rfl⟩, rfl⟩
  · refine (beginBlock_marks target).quiet_bind fun _ => ?_
    exact hRecord _ fun _ => ⟨rfl, ⟨rfl, rfl, rfl, rfl, rfl⟩, rfl⟩

theorem leave_marks (hOwn : p.own id') : Marking p id (leave id') := by
  refine (unstructure_marks hOwn).quiet_bind fun _ => ?_
  refine (look_marks _).quiet_bind fun next => ?_
  refine (look_marks _).quiet_bind fun e => ?_
  exact .ite (beginBlockAfter_marks id') (.pure ())

/-
  Only the action itself gets extra blocks and, for a branch, a
  successor.
-/
theorem action_marks {a : Action} (hOwn : ∀ k, p.own k) (hCounted : p.counted id')
    (hSteered : a.branchLabels ≠ [] ∨ a.reference? ≠ none → p.steered id') :
    Marking p id (action id' a) := by
  have hLabels : ∀ labels : List Label, (labels ≠ [] → p.steered id') →
      Marking p id (labels.forM (branchToLabel id')) :=
    fun _ hSome => .forM fun label hIn =>
      branchToLabel_marks hOwn (hSome (List.ne_nil_of_mem hIn)) label
  cases a with
  | call returns => exact hLabels returns fun hSome => hSteered (.inl hSome)
  | cycle name =>
    refine (loopOf_marks name _).quiet_bind fun construct => ?_
    refine (look_marks _).quiet_bind fun e => ?_
    refine (look_marks _).quiet_bind fun last => ?_
    exact branchTo_marks hOwn (hSteered (.inr nofun)) last
  | exit name =>
    refine (loopOf_marks name _).quiet_bind fun construct => ?_
    refine (look_marks _).quiet_bind fun target => ?_
    exact branchTo_marks hOwn (hSteered (.inr nofun)) target
  | goto label => exact branchToLabel_marks hOwn (hSteered (.inl nofun)) label
  | computedGoto labels => exact hLabels labels fun hSome => hSteered (.inl hSome)
  | arithmeticIf category labels =>
    exact (hLabels labels fun hSome => hSteered (.inl hSome)).quiet_bind fun _ =>
      .ite (count_marks hCounted _) (.pure ())
  | assign label symbol => exact assign_marks label symbol
  | assignedGoto =>
    exact (unstructure_marks (hOwn id')).quiet_bind fun _ => beginBlockAfter_marks id'
  | «return» | stop => exact leave_marks (hOwn id')
  | io =>
    refine Marking.quiet_bind (.forM fun f _ => format_marks (hOwn id') f) fun _ => ?_
    refine .forM fun spec hIn => ioSpec_marks hOwn spec fun hSome => hSteered (.inl ?_)
    rcases Option.ne_none_iff_exists'.mp hSome with ⟨label, hLabel⟩
    exact List.ne_nil_of_mem (List.mem_filterMap.mpr ⟨spec, hIn, hLabel⟩)
  | assignment | «continue» | «if» | other => exact .pure ()

----
-- Constructs
----

theorem nameConstruct_marks (g : Guard) (construct : EvalId) : Marking p
      (fun s => { s with names := (g.construct.map fun n => (n, construct)).toList ++ s.names })
      (nameConstruct g construct) := by
  refine .of_evals fun a r a' hRun => ?_
  cases hRun
  exact ⟨rfl, .refl _, rfl⟩

/- A change of the open loops only. -/
theorem loops_marks (f : List EvalId → List EvalId) : Marking p
      (fun s => { s with loops := f s.loops })
      (modify fun a => { a with loops := f a.loops } : Analyze Unit) := by
  refine .of_evals fun a r a' hRun => ?_
  cases hRun
  exact ⟨rfl, .refl _, rfl⟩

theorem chain_marks (hLast : ∀ l, last = some l → p.steered l)
    (id' : EvalId) : Marking p id (chain last id') :=
  given_marks fun l hSome => setControl_marks (hLast l hSome) (some id')

theorem loopBegin_marks (siblings : List EvalId) (hOwn : p.own id') (hSteered : p.steered id')
    (control : Option LoopControl) :
    Marking p id (loopBegin siblings id' control) := by
  cases control with
  | none => exact unstructure_marks hOwn
  | some control =>
    refine (beginBlockAfter_marks id').quiet_bind fun _ => ?_
    refine (setControl_marks hSteered _).quiet_bind fun _ => ?_
    exact .ite (unstructure_marks hOwn) (.pure ())

theorem concurrentBlocks_marks (hFirst : p.counted first) (hLast : p.counted id')
    (dims : Nat) (masked : Bool) :
    Marking p id (concurrentBlocks first id' dims masked) := by
  refine (look_marks _).quiet_bind fun count => ?_
  refine (count_marks hFirst _).quiet_bind fun _ => ?_
  exact mark_marks (fun _ => rfl) (fun _ => rfl) (.inr fun _ => rfl)
    (fun e hBlock => by simp [hBlock]) (.inl hLast) (.inr fun _ => rfl)

theorem loopEnd_marks (options : FlowOptions) (construct : EvalId)
    (hFirst : ∀ k, siblings.head? = some k → p.counted k) (hLast : p.counted id')
    (hSteered : p.steered id') : Marking p
      (fun s => { s with loops := s.loops.tail }) (loopEnd options construct siblings id') := by
  refine given_marks fun first hFound => ?_
  have hCounted := hFirst first (List.head?_eq_getElem?.trans hFound)
  refine Marking.bind (g := fun s => { s with loops := s.loops.tail })
    (setControl_marks hSteered _) fun _ => ?_
  refine Marking.bind (g := id) (loops_marks List.tail) fun _ => ?_
  refine (needsBranches_marks options construct).quiet_bind fun needed => ?_
  refine .ite ?_ (.pure ())
  refine (count_marks hCounted _).quiet_bind fun _ => ?_
  refine (look_marks _).quiet_bind fun exit => ?_
  refine (beginBlock_marks exit).quiet_bind fun _ => ?_
  refine (look_marks _).quiet_bind fun e => ?_
  split
  · split
    · exact concurrentBlocks_marks hCounted hLast _ _
    · exact .pure ()
  · intro a r a' hRun
    cases hRun

/-
  Only the beginning of a loop is marked. Only the end of a loop
  counts blocks, and for its loop alone. The ends of a loop steer
  themselves, and others the guard that falls through to them.
-/
theorem guard_marks (construct : EvalId) (siblings : List EvalId)
    (g : Guard) (hOwn : ∀ control, g.kind = .do control → p.own id')
    (hCounted : g.kind = .endDo → p.counted id' ∧ ∀ k, siblings.head? = some k → p.counted k)
    (hSteered : g.kind.boundsLoop = true → p.steered id')
    (hLast : ∀ l, last = some l → p.steered l) : Marking p (Scopes.afterGuard g construct)
      (guard options construct siblings last id' g) := by
  have hName : Marking p _ (nameConstruct g construct) :=
    nameConstruct_marks g construct
  have hNamed : ∀ r : Option EvalId,
      Marking p _ (do nameConstruct g construct; return r) :=
    fun r => hName.bind (g := id) fun _ => .pure r
  have hChain : ∀ r : Option EvalId, Marking p id (do chain last id'; return r) :=
    fun r => (chain_marks hLast id').quiet_bind fun _ => .pure r
  have hEach : ∀ {f : EvalId → Analyze Unit},
      (∀ l, p.steered l → Marking p id (f l)) →
      Marking p id (do last.toList.forM f; return (none : Option EvalId)) :=
    fun hStep => Marking.quiet_bind (.forM fun l hIn => hStep l (hLast l (Option.mem_toList.mp hIn)))
      fun _ => .pure _
  rcases g with ⟨kind, name⟩
  cases kind with
  | «do» control =>
    refine Marking.bind (g := fun s => { s with loops := construct :: s.loops }) hName fun _ => ?_
    refine Marking.bind (g := id) (loops_marks (construct :: ·)) fun _ => ?_
    exact (loopBegin_marks siblings (hOwn control rfl) (hSteered rfl) control).quiet_bind
      fun _ => .pure last
  | endDo =>
    rcases hCounted rfl with ⟨hBoth, hFirst⟩
    exact (loopEnd_marks options construct hFirst hBoth (hSteered rfl)).bind fun _ => .pure last
  | ifThen =>
    refine Marking.bind (g := id) hName fun _ => ?_
    refine (look_marks _).quiet_bind fun next => ?_
    exact (beginBlock_marks next).quiet_bind fun _ => .pure _
  | elseIf =>
    refine (beginBlock_marks id').quiet_bind fun _ => ?_
    refine (look_marks _).quiet_bind fun next => ?_
    exact (beginBlock_marks next).quiet_bind fun _ => hChain _
  | endIf =>
    refine (look_marks _).quiet_bind fun exit => ?_
    refine (needsBranches_marks options construct).quiet_bind fun needed => ?_
    have hSet := hEach (f := fun l => setControl l (some exit)) fun l hIn => setControl_marks hIn _
    exact .ite ((beginBlock_marks exit).quiet_bind fun _ => hSet) hSet
  | «else» | case | selectRankCase | typeGuard =>
    exact (beginBlock_marks id').quiet_bind fun _ => hChain _
  | endSelect =>
    refine (beginBlockAfter_marks id').quiet_bind fun _ => hEach fun l hIn => ?_
    exact (look_marks _).quiet_bind fun exit => setFirstControl_marks hIn exit
  | selectCase | selectRank | selectType | associate | block | critical | changeTeam =>
    exact hNamed _
  | endAssociate | endBlock | endCritical | endChangeTeam => exact .pure _

----
-- Ends of evaluations
----

theorem finishConditional_marks
    (hOwn : p.own conditional) (hSteered : p.steered conditional) (id' : EvalId) :
    Marking p id (finishConditional options id' conditional) := by
  have hLast : Marking p id (do
      setControl conditional (some (← look (·.nextBeyondNops id'))) : Analyze Unit) :=
    (look_marks _).quiet_bind fun next => setControl_marks hSteered (some next)
  refine (needsBranches_marks options id').quiet_bind fun needed => ?_
  refine .ite ?_ hLast
  refine (beginBlock_marks id').quiet_bind fun _ => ?_
  refine (beginBlockAfter_marks id').quiet_bind fun _ => ?_
  exact (unstructure_marks hOwn).quiet_bind fun _ => hLast

theorem leaveArm_marks (hSteered : p.steered id') :
    Marking p id (leaveArm parent id') := by
  refine (look_marks _).quiet_bind fun e => ?_
  split
  · rename_i next _ _
    refine (look_marks _).quiet_bind fun following => ?_
    refine .ite ?_ (.pure ())
    refine (look_marks _).quiet_bind fun c => ?_
    refine (look_marks _).quiet_bind fun construct => ?_
    refine (setControl_marks hSteered _).quiet_bind fun _ => ?_
    exact beginBlock_marks next
  · exact .pure ()

/- The last step behind an evaluation. -/
theorem finishLast_marks (left : Open) (id' : EvalId) (e : Evaluation) :
    Marking p id (do
      if e.controlNext.isSome && e.isAction && e.needsBranches options then
        beginBlockAfter id'
      if (left.conditional.filter fun c => c ≠ id').isSome then
        return { left with conditional := none }
      else return left : Analyze Open) := by
  refine .ite ?_ (.ite (.pure _) (.pure _))
  exact (beginBlockAfter_marks id').quiet_bind fun _ => .ite (.pure _) (.pure _)

/- The steps behind an evaluation that come before the last ones. -/
theorem finishConditionals_marks {left : Open} (hOwn : ∀ k, p.own k)
    (hSteered : ∀ c, left.conditional = some c → p.steered c) : Marking p id
      ((left.conditional.filter fun c => c ≠ id').toList.forM (finishConditional options id')) := by
  refine .forM fun c hIn => finishConditional_marks options (hOwn c) (hSteered c ?_) id'
  exact (Option.filter_eq_some_iff.mp (Option.mem_toList.mp hIn)).1

/- The steps behind an evaluation that come last. -/
theorem finishMarks_marks (left : Open)
    (hOwn : ∀ k, p.own k) (id' : EvalId) : Marking p id (do
      let e ← look (·.eval id')
      if e.isUnstructured then
        parent.toList.forM unstructure
      if e.controlNext.isSome && e.isAction && e.needsBranches options then
        beginBlockAfter id'
      if (left.conditional.filter fun c => c ≠ id').isSome then
        return { left with conditional := none }
      else return left : Analyze Open) := by
  refine (look_marks _).quiet_bind fun e => ?_
  have hLast : Marking p id _ := finishLast_marks options left id' e
  exact .ite (Marking.quiet_bind (.forM fun p _ => unstructure_marks (hOwn p)) fun _ => hLast) hLast

theorem action_notes (id' : EvalId) (a : Action) : Notes id (action id' a) :=
  action_marks (fun _ => trivial) trivial fun _ => trivial

theorem guard_notes (construct : EvalId) (siblings : List EvalId)
    (last : Option EvalId) (id' : EvalId) (g : Guard) :
    Notes (Scopes.afterGuard g construct) (guard options construct siblings last id' g) :=
  guard_marks options construct siblings g (fun _ _ => trivial)
    (fun _ => ⟨trivial, fun _ _ => trivial⟩) (fun _ => trivial) fun _ _ => trivial

theorem finish_notes (left : Open) (id' : EvalId) :
    Notes id (finish options parent left id') :=
  (finishConditionals_marks options (fun _ => trivial) fun _ _ => trivial).quiet_bind fun _ =>
    (leaveArm_marks parent trivial).quiet_bind fun _ =>
      finishMarks_marks options parent left (fun _ => trivial) id'

end Analyze

end FortranIR
