import FortranIR.Proofs.Flow.Branches

/-
  This file says which statements a construct of some kind has,
  and proves how the evaluations of a construct are laid out:
  those directly in it are in order, begin with the statement of
  its first arm, end with its end statement, and have the
  statements of the other arms in between.

  Main declarations:
    * `SubprogramHead.isWellFormed`
    * `FunctionUnit.ofHead_children`
-/

namespace FortranIR

variable {e : Evaluation} {id : EvalId} {α : Type}

open Outline

namespace ConstructKind

/- The statement begins a construct of the kind. -/
def begunBy : ConstructKind → GuardKind → Bool
  | .do, .do _ => true
  | .if, .ifThen => true
  | .case, .selectCase => true
  | .selectRank, .selectRank => true
  | .selectType, .selectType => true
  | .associate, .associate => true
  | .block, .block => true
  | .critical, .critical => true
  | .changeTeam, .changeTeam => true
  | _, _ => false

/- The statement continues a construct of the kind. -/
def continuedBy : ConstructKind → GuardKind → Bool
  | .if, .elseIf => true
  | .if, .else => true
  | .case, .case => true
  | .selectRank, .selectRankCase => true
  | .selectType, .typeGuard => true
  | _, _ => false

/- The statement ends a construct of the kind. -/
def endedBy : ConstructKind → GuardKind → Bool
  | .do, .endDo => true
  | .if, .endIf => true
  | .case, .endSelect => true
  | .selectRank, .endSelect => true
  | .selectType, .endSelect => true
  | .associate, .endAssociate => true
  | .block, .endBlock => true
  | .critical, .endCritical => true
  | .changeTeam, .endChangeTeam => true
  | _, _ => false

/- The statements of the arms and the end fit the construct. -/
def admits (kind : ConstructKind) : List GuardKind → GuardKind → Bool
  | [], _ => false
  | first :: rest, last => kind.begunBy first && rest.all kind.continuedBy && kind.endedBy last

end ConstructKind

theorem Evaluation.isStatement_of_isExecutable (hIs : e.isExecutable = true) :
    e.isStatement = true := by
  rw [isExecutable, isAction, action?, isGuard, guard?] at hIs
  rw [isStatement, isConstruct, isDirective]
  cases hNode : e.node <;> simp [hNode] at hIs ⊢

theorem Evaluation.isExecutable_of_isGuard (hGuard : e.isGuard = true) :
    e.isExecutable = true := by rw [isExecutable, hGuard, Bool.or_true]

/- Every construct of a subprogram has the statements of its kind. -/
def SubprogramHead.isWellFormed (s : SubprogramHead) : Bool :=
  Node.everyNode ConstructKind.admits s.body

----
-- Units
----

namespace FunctionUnit

variable {parent : UnitParent} {source : SubprogramHead}

/- The construct statement of an evaluation. -/
def guardAt? (u : FunctionUnit) (id : EvalId) : Option Guard :=
  (u.evals[id]?).bind Evaluation.guard?

/-
  The constructs of a unit consist of the statements of their
  arms, in the order of the arms, and an end statement.
-/
def Built (u : FunctionUnit) (p : ConstructKind → List GuardKind → GuardKind → Bool) : Prop :=
  ∀ (c : EvalId) (e : Evaluation) (kind : ConstructKind),
    u.evals[c]? = some e → e.node = .construct kind →
    ∃ gs last init k, p kind (gs.map Guard.kind) last.kind = true ∧ e.children = init ++ [k] ∧
      u.guardAt? k = some last ∧ init.filterMap u.guardAt? = gs ∧
      init.head?.bind u.guardAt? = gs.head?

/- The evaluations of a new unit, with the construct statements. -/
theorem guardAt?_of_mem {t : Outline Numbered} (hMember : t.root ∈ flattenAll (numbered source)) :
    (ofHead parent source).guardAt? t.root.1 = t.guard? := by
  rcases t with ⟨⟨id, e₀⟩, nested⟩
  rcases ofHead_eval_of_mem parent hMember with ⟨e, hEval, hFixed⟩
  have hNode : e.node = e₀.node := congrArg Prod.fst hFixed
  rw [guardAt?, Outline.root, hEval, Option.bind_some, Evaluation.guard?, hNode]
  rfl

theorem ofHead_built (hEvery : Node.everyNode p source.body = true) :
    (ofHead parent source).Built p := by
  intro c e kind hEval hKind
  rcases ofHead_formed hEvery hEval with ⟨e₀, _, _, nested, hSame, hPart, hAll, -⟩
  rcases hPart with ⟨-, -, -, hChildren, -, -, hConstruct, -⟩
  rw [hSame] at hKind ⊢
  rcases hConstruct kind hKind with ⟨gs, last, init, t, hFits, rfl, hLast, hInit, hHead⟩
  -- the statements of the unit are those of the outline
  have hGuard : ∀ r ∈ init ++ [t], (ofHead parent source).guardAt? r.root.1 = r.guard? :=
    fun r hR => guardAt?_of_mem (hAll _ (root_mem_flattenAll hR))
  have hInitGuard : ∀ r ∈ init, (ofHead parent source).guardAt? r.root.1 = r.guard? :=
    fun r hR => hGuard r (List.mem_append.mpr (.inl hR))
  refine ⟨gs, last, init.map fun r => r.root.1, t.root.1, hFits, ?_, ?_, ?_, ?_⟩
  · exact hChildren.trans List.map_append
  · rw [hGuard t (by simp), hLast]
  · rw [List.filterMap_map, ← hInit]
    exact List.filterMap_congr hInitGuard
  · rw [← hHead]
    cases init with
    | nil => rfl
    | cons r rest => exact hInitGuard r (.head _)

/- Nothing is in a construct statement. -/
theorem ofHead_guard_children
    (hEval : (ofHead parent source).evals[id]? = some e) (hGuard : e.isGuard = true) :
    e.children = [] :=
  ofHead_leaf hEval (Evaluation.isStatement_of_isExecutable
    (Evaluation.isExecutable_of_isGuard hGuard))

----
-- Children
----

theorem flatten_sublist (hMember : t ∈ ts) : (flatten t).Sublist (flattenAll ts) := by
  induction ts with
  | nil => cases hMember
  | cons s ts ih =>
    rcases List.mem_cons.mp hMember with rfl | hIn
    · exact List.sublist_append_left _ _
    · exact (ih hIn).trans (List.sublist_append_right _ _)

theorem roots_sublist (ts : List (Outline α)) : (ts.map Outline.root).Sublist (flattenAll ts) := by
  induction ts with
  | nil => exact .slnil
  | cons t ts ih =>
    rcases t with ⟨a, nested⟩
    exact (ih.trans (List.sublist_append_right _ _)).cons_cons a

/- The children of an evaluation are directly in it, in order. -/
theorem Nests.sorted_children {u : FunctionUnit}
    (hNests : u.Nests outer t) (hSorted : (flatten t).Pairwise (· < ·))
    (hMember : c ∈ flatten t) (hEval : u.evals[c]? = some e) :
    e.children.Pairwise (· < ·) ∧ ∀ k ∈ e.children, u.outer? k = some c := by
  induction hNests with
  | node hAt hOuter hChildren hNested ih =>
    rename_i outer root r nested
    have hInner := (List.pairwise_cons.mp hSorted).2
    rcases List.mem_cons.mp hMember with rfl | hInside
    · cases hEval.symm.trans hAt
      rw [hChildren]
      refine ⟨hInner.sublist (roots_sublist nested), ?_⟩
      intro k hIn
      rcases List.mem_map.mp hIn with ⟨t, hT, rfl⟩
      cases hNested t hT with
      | node hThere hUp _ _ => rw [Outline.root, outer?, hThere, Option.bind_some, hUp]
    · rcases mem_flattenAll.mp hInside with ⟨t, hIn, hFound⟩
      exact ih t hIn (hInner.sublist (flatten_sublist hIn)) hFound

/- An evaluation of a new unit is in one of its outlines. -/
theorem ofHead_outline (hEval : (ofHead parent source).evals[id]? = some e) :
    ∃ t ∈ (ofHead parent source).outline, id ∈ flatten t := by
  refine mem_flattenAll.mp ?_
  rw [ofHead_flattenAll, List.mem_range'_1, Nat.zero_add]
  exact ⟨Nat.zero_le _, (List.getElem?_eq_some_iff.mp hEval).1⟩

theorem ofHead_children (hEval : (ofHead parent source).evals[c]? = some e) :
    e.children.Pairwise (· < ·) ∧ ∀ k ∈ e.children, (ofHead parent source).outer? k = some c := by
  have hSorted : (flattenAll (ofHead parent source).outline).Pairwise (· < ·) := by
    rw [ofHead_flattenAll]
    exact List.pairwise_lt_range'
  rcases ofHead_outline hEval with ⟨t, hIn, hAt⟩
  exact (ofHead_nests parent source t hIn).sorted_children
    (hSorted.sublist (flatten_sublist hIn)) hAt hEval

end FunctionUnit

end FortranIR
