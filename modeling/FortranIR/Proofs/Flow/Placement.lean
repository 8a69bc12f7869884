import FortranIR.Proofs.Flow.Exits
import FortranIR.Proofs.Flow.Numbering

/-
  This file proves where the statements of a unit are placed:
  what is between a construct and something directly in it is in
  the construct, falling into a statement that only leaves a
  construct is possible from inside the construct only, and the
  open loops are those between whose ends a statement stands.

  Main declarations:
    * `FunctionUnit.Placed`
    * `FunctionUnit.Placed.loops`
-/

namespace FortranIR

variable {k : EvalId} {kind : ConstructKind} {g : GuardKind} {name : Option String}

open Outline

variable {first n id c : Nat} {source : SubprogramHead} {t : Outline EvalId}
variable {e : Evaluation}

----
-- Frames
----

/- A part of outlines that take a range takes a range. -/
theorem Outline.flatten_range_of_mem
    (hIds : flattenAll ts = List.range' first n) (hMember : t ∈ ts) :
    ∃ first' n', flatten t = List.range' first' n' := by
  rcases List.append_of_mem hMember with ⟨left, right, rfl⟩
  rw [flattenAll_append, flattenAll, eq_comm, List.range'_eq_append_iff] at hIds
  rcases hIds with ⟨k, -, -, hRest⟩
  rw [eq_comm, List.range'_eq_append_iff] at hRest
  rcases hRest with ⟨m, -, hFirst, -⟩
  exact ⟨_, m, hFirst⟩

theorem ConstructKind.isNop_of_begunBy (hBegun : kind.begunBy g = true) : g.isNop = false := by
  cases kind <;> cases g <;> simp [ConstructKind.begunBy] at hBegun <;> rfl

/- A statement that only leaves its construct ends without code. -/
theorem ConstructKind.endsWithCode_of_isNop
    (hNop : g.isNop = true) (hGuard : kind.endedBy g = true ∨ kind.continuedBy g = true) :
    kind.endsWithCode = false := by
  cases kind <;> first
    | rfl
    | (cases g <;> simp [continuedBy, endedBy] at hGuard; cases hNop)

/- The name that a statement gives to the construct it begins. -/
def Guard.name? (g : Guard) : Option String := if g.kind.begins then g.construct else none

theorem Evaluation.isNop_of_isIntermediate (hArm : e.isIntermediate = true) : e.isNop = true := by
  rcases Option.any_eq_true _ _ |>.mp hArm with ⟨g, hGuard, hKind⟩
  rw [isNop, hGuard, Option.any_some, GuardKind.isNop, hKind]
  rfl

/- The evaluation is executed, or is an entry statement. -/
def Evaluation.isFollowed (e : Evaluation) : Bool := e.isExecutable || e.entrySymbol?.isSome

namespace FunctionUnit

variable {u : FunctionUnit}

/-
  What is directly in an evaluation is listed in it, and all that
  comes before it is in that evaluation too.
-/
theorem Nests.listed (hNests : u.Nests outer t)
    (hIds : flatten t = List.range' first n) (hMember : k ∈ flatten t) :
    (k = t.root ∧ u.outer? k = outer) ∨ ∃ c, u.outer? k = some c ∧ k ∈ u.children c ∧
        ∀ x : Nat, c < x → x ≤ k → u.Contains c x := by
  induction hNests generalizing first n with
  | node hEval hOuter hChildren hNested ih =>
    rename_i outer root e nested
    rcases List.mem_cons.mp hMember with rfl | hInside
    · exact .inl ⟨rfl, by rw [outer?, hEval, Option.bind_some, hOuter]⟩
    refine .inr ?_
    have hRange := hIds
    rw [flatten, eq_comm, List.range'_eq_cons_iff] at hRange
    rcases hRange with ⟨rfl, _, hRest⟩
    rcases mem_flattenAll.mp hInside with ⟨t, hIn, hAt⟩
    rcases flatten_range_of_mem hRest hIn with ⟨first', n', hT⟩
    rcases ih t hIn hT hAt with ⟨rfl, hHere⟩ | hDeeper
    · refine ⟨_, hHere, ?_, ?_⟩
      · rw [children, hEval, Option.elim_some, hChildren]
        exact List.mem_map_of_mem hIn
      · intro x hAbove hBelow
        have hX : x ∈ flattenAll nested := by
          rw [hRest, List.mem_range'_1]
          rw [hRest, List.mem_range'_1] at hInside
          exact ⟨hAbove, hBelow.trans_lt hInside.2⟩
        rcases mem_flattenAll.mp hX with ⟨s, hS, hThere⟩
        exact Analyze.contains_of_nests (hNested s hS) rfl hThere
    · exact hDeeper

/-
  A unit whose statements are placed as in a subprogram with
  constructs of their kinds.
-/
structure Placed (u : FunctionUnit) : Prop where
  formed : u.WellFormed
  threaded : u.Threaded
  leaf : ∀ (id : EvalId) (e : Evaluation), u.evals[id]? = some e →
      e.isStatement = true → e.children = []
  guard : ∀ (id : EvalId) (e : Evaluation), u.evals[id]? = some e → e.isGuard = true →
      ∃ c kind, e.outer = some c ∧ u.kindAt? c = some kind
  listed : ∀ k c, u.outer? k = some c → k ∈ u.children c
  between : ∀ k c x : Nat, u.outer? k = some c → c < x → x ≤ k → u.Contains c x

/- A construct statement is directly in a construct. -/
theorem ofHead_guard_outer {parent : UnitParent}
    (hEval : (ofHead parent source).evals[id]? = some e) (hGuard : e.isGuard = true) :
    ∃ c kind, e.outer = some c ∧ (ofHead parent source).kindAt? c = some kind := by
  rcases ofHead_formed (everyNode_true source.body) hEval with
    ⟨e₀, outer, inside, nested, hSame, ⟨hOuter, -, -, -, hInside, -, -, -⟩, -, hAround⟩
  rw [hSame] at hGuard
  rcases hAround (hInside hGuard) with ⟨q, hQ, hDirect, hConstruct⟩
  rcases ofHead_eval_of_mem parent hQ with ⟨f, hF, hFixed⟩
  have hKind : f.node = q.2.node := congrArg Prod.fst hFixed
  rw [Evaluation.isConstruct] at hConstruct
  split at hConstruct
  · rename_i kind hIsKind
    refine ⟨q.1, kind, by rw [hSame]; exact hOuter.trans hDirect, ?_⟩
    rw [kindAt?, hF, Option.bind_some, hKind, hIsKind]
    rfl
  · cases hConstruct

theorem ofHead_placed (parent : UnitParent) (hFormed : (ofHead parent source).WellFormed) :
    (ofHead parent source).Placed := by
  have hListed : ∀ k c, (ofHead parent source).outer? k = some c →
        k ∈ (ofHead parent source).children c ∧ ∀ x : Nat, c < x → x ≤ k →
            (ofHead parent source).Contains c x := by
    intro k c hOuter
    rcases Option.bind_eq_some_iff.mp hOuter with ⟨e, hEval, -⟩
    rcases ofHead_outline hEval with ⟨t, hIn, hAt⟩
    rcases flatten_range_of_mem (ofHead_flattenAll parent source) hIn with ⟨first, n, hT⟩
    rcases (ofHead_nests parent source t hIn).listed hT hAt with
      ⟨-, hNone⟩ | ⟨c', hSame, hRest⟩
    · rw [hOuter] at hNone
      cases hNone
    · rw [hOuter, Option.some.injEq] at hSame
      exact hSame ▸ hRest
  exact {
    formed := hFormed
    threaded := ofHead_threaded parent source
    leaf := fun _ _ => ofHead_leaf
    guard := fun _ _ => ofHead_guard_outer
    listed := fun k c hOuter => (hListed k c hOuter).1
    between := fun k c x hOuter => (hListed k c hOuter).2 x }

----
-- Scopes
----

/- A loop is around a place behind its `do`. -/
def Spans (u : FunctionUnit) (k c : Nat) : Prop :=
  u.kindAt? c = some .do ∧ u.Contains c k ∧ c + 1 < k

/- The name that a statement gives to its construct. -/
def nameAt? (u : FunctionUnit) (id : EvalId) : Option String := (u.guardAt? id).bind Guard.name?

theorem scopesBefore_succ_of_none (hNone : u.guardAt? k = none) :
    u.scopesBefore (k + 1) = u.scopesBefore k := by
  cases hEval : u.evals[k]? with
  | none => rw [scopesBefore, List.take_add_one, hEval, Option.toList_none, List.append_nil]; rfl
  | some e =>
    rw [guardAt?, hEval, Option.bind_some, Evaluation.guard?] at hNone
    rw [scopesBefore_succ hEval, Scopes.after]
    split
    · rename_i hNode _
      rw [hNode] at hNone
      cases hNone
    · rfl

theorem scopesBefore_succ_of_guard {g : Guard} (hGuard : u.guardAt? k = some g)
    (hOuter : u.outer? k = some c) :
    u.scopesBefore (k + 1) = (u.scopesBefore k).afterGuard g c := by
  rcases Option.bind_eq_some_iff.mp hGuard with ⟨e, hEval, hSome⟩
  rw [outer?, hEval, Option.bind_some] at hOuter
  rw [scopesBefore_succ hEval, Scopes.after, Evaluation.guard?_eq_some_iff.mp hSome, hOuter]

----
-- What follows an evaluation
----

theorem mem_executables_iff (hThreaded : u.Threaded) {n : EvalId} : n ∈ u.executables ↔
      ∃ e, u.evals[n]? = some e ∧ e.isExecutable = true := by
  rw [executables_eq hThreaded.walk, Evaluation.executableIds,
    List.mem_filter, List.mem_range, Evaluation.executableAt, Option.any_eq_true]
  refine ⟨fun hBoth => hBoth.2, fun hIs => ⟨?_, hIs⟩⟩
  rcases hIs with ⟨e, hEval, -⟩
  exact (List.getElem?_eq_some_iff.mp hEval).1

/- What follows an evaluation is the first one that is executed. -/
theorem Threaded.next?_eq (hThreaded : u.Threaded) (hEval : u.evals[id]? = some e) : u.next? id =
      if e.isFollowed then u.executables.find? fun n => id < n else none := by
  rw [next?, hEval, Option.bind_some, Evaluation.isFollowed]
  cases hIs : e.isExecutable with
  | true =>
    have hMember := (mem_executables_iff hThreaded).mpr ⟨e, hEval, hIs⟩
    rcases List.mem_iff_getElem?.mp hMember with ⟨k, hAt⟩
    rcases hThreaded.chain k id hAt with ⟨f, hSame, -, hNext⟩
    cases hEval.symm.trans hSame
    rw [hNext, eq_comm]
    refine find?_lt_of_pairwise ?_ hAt
    rw [executables_eq hThreaded.walk]
    exact Evaluation.executableIds_pairwise u.evals
  | false => exact (hThreaded.others id e hEval hIs).2

variable (hPlaced : u.Placed)
include hPlaced

/- An evaluation that is followed, and that is not the last one. -/
theorem Placed.next?_isSome (hEval : u.evals[id]? = some e)
    (hFollowed : e.isFollowed = true) (hLast : u.evals[last]? = some f)
    (hExecutable : f.isExecutable = true) (hBelow : id < last) : (u.next? id).isSome = true := by
  rw [hPlaced.threaded.next?_eq hEval, if_pos hFollowed, List.find?_isSome]
  exact ⟨last, (mem_executables_iff hPlaced.threaded).mpr
    ⟨f, hLast, hExecutable⟩, decide_eq_true hBelow⟩

/- What follows an evaluation comes behind it. -/
theorem Placed.next?_eq_some (hNext : u.next? id = some n) : id < n ∧
      (∃ e, u.evals[n]? = some e ∧ e.isExecutable = true) ∧
      ∀ (m : Nat) (e : Evaluation), u.evals[m]? = some e →
        e.isExecutable = true → m < n → m ≤ id := by
  rcases Option.bind_eq_some_iff.mp hNext with ⟨e, hEval, -⟩
  rw [hPlaced.threaded.next?_eq hEval] at hNext
  split at hNext
  · have hIs := List.find?_some hNext
    refine ⟨of_decide_eq_true hIs, (mem_executables_iff hPlaced.threaded).mp
        (List.mem_of_find?_eq_some hNext), ?_⟩
    intro m f hAt hExecutable hLess
    by_contra hAbove
    have hMember := (mem_executables_iff hPlaced.threaded).mpr ⟨f, hAt, hExecutable⟩
    have hSorted : u.executables.Pairwise (· < ·) := by
      rw [executables_eq hPlaced.threaded.walk]
      exact Evaluation.executableIds_pairwise u.evals
    -- the first one behind `id` is at most `m`
    rcases List.find?_eq_some_iff_append.mp hNext with ⟨-, before, rest, hSplit, hNone⟩
    rw [hSplit] at hMember hSorted
    rcases List.mem_append.mp hMember with hIn | hIn
    · have hNot := hNone m hIn
      simp only [Bool.not_eq_true', decide_eq_false_iff_not] at hNot
      exact hNot (Nat.lt_of_not_le hAbove)
    · rcases List.mem_cons.mp hIn with rfl | hLater
      · exact Nat.lt_irrefl _ hLess
      · rw [List.pairwise_append, List.pairwise_cons] at hSorted
        exact Nat.lt_asymm hLess (hSorted.2.1.1 m hLater)
  · cases hNext

/-
  A construct statement begins a construct as its first
  statement, ends it as its last one, or continues it between
  them.
-/
theorem Placed.guard_cases {g : Guard} (hGuard : u.guardAt? k = some g) :
    ∃ c kind first last, u.outer? k = some c ∧ u.kindAt? c = some kind ∧
      u.firstChild? c = some first ∧ u.lastChild? c = some last ∧
      (k = first ∧ kind.begunBy g.kind = true ∨ first < k ∧ (k = last ∧ kind.endedBy g.kind = true ∨
        k < last ∧ kind.continuedBy g.kind = true)) := by
  rcases Option.bind_eq_some_iff.mp hGuard with ⟨e, hEval, hSome⟩
  rcases hPlaced.guard k e hEval (by rw [Evaluation.isGuard, hSome]; rfl) with
    ⟨c, kind, hOuter, hKind⟩
  have hIn : u.outer? k = some c := by rw [outer?, hEval, Option.bind_some, hOuter]
  rcases hPlaced.formed.construct hKind with
    ⟨first, last, begins, ends, hFirst, hLast, hBegins, hEnds, hBegun, hEnded, hOthers⟩
  refine ⟨c, kind, first, last, hIn, hKind, hFirst, hLast, ?_⟩
  rcases Option.bind_eq_some_iff.mp hKind with ⟨f, hF, -⟩
  have hListed := hPlaced.listed k c hIn
  rw [children, hF] at hListed
  by_cases hHead : k = first
  · cases hGuard.symm.trans (hHead ▸ hBegins)
    exact .inl ⟨hHead, hBegun⟩
  refine .inr ⟨Nat.lt_of_le_of_ne (hPlaced.formed.firstChild?_le hF hFirst hListed)
    (Ne.symm hHead), ?_⟩
  by_cases hEnd : k = last
  · cases hGuard.symm.trans (hEnd ▸ hEnds)
    exact .inl ⟨hEnd, hEnded⟩
  · rcases hOthers k g f hF hListed hEnd hGuard with ⟨hSame, -⟩ | hContinued
    · exact absurd hSame hHead
    · exact .inr ⟨Nat.lt_of_le_of_ne (hPlaced.formed.le_lastChild? hF hLast hListed) hEnd,
        hContinued⟩

/- A statement that only leaves its construct is not the first one in it. -/
theorem Placed.nop_cases (hEval : u.evals[n]? = some e) (hNop : e.isNop = true) :
    ∃ c kind first, e.outer = some c ∧ u.outer? n = some c ∧ u.kindAt? c = some kind ∧
      kind.endsWithCode = false ∧ u.firstChild? c = some first ∧ first < n := by
  rcases Option.any_eq_true _ _ |>.mp hNop with ⟨g, hGuard, hIs⟩
  have hAt : u.guardAt? n = some g := by rw [guardAt?, hEval, Option.bind_some, hGuard]
  rcases hPlaced.guard_cases hAt with ⟨c, kind, first, last, hIn, hKind, hFirst, -, hCases⟩
  have hOuter : e.outer = some c := by rwa [outer?, hEval] at hIn
  rcases hCases with ⟨-, hBegun⟩ | ⟨hBefore, hCases⟩
  · rw [ConstructKind.isNop_of_begunBy hBegun] at hIs
    cases hIs
  · refine ⟨c, kind, first, hOuter, hIn, hKind, ?_, hFirst, hBefore⟩
    exact ConstructKind.endsWithCode_of_isNop hIs (hCases.imp And.right And.right)

/-
  Only what is in a construct falls into a statement that leaves
  the construct.
-/
theorem Placed.contains_of_nop (hNext : u.next? id = some n) (hEval : u.evals[n]? = some e)
    (hNop : e.isNop = true) :
    ∃ c kind, e.outer = some c ∧ u.kindAt? c = some kind ∧ u.Contains c id := by
  rcases hPlaced.nop_cases hEval hNop with ⟨c, kind, first, hOuter, hIn, hKind, -, hFirst, hBefore⟩
  refine ⟨c, kind, hOuter, hKind, ?_⟩
  rcases hPlaced.formed.construct hKind with ⟨first', -, begins, -, hFirst', -, hBegins, -⟩
  cases hFirst.symm.trans hFirst'
  rcases Option.bind_eq_some_iff.mp hBegins with ⟨b, hB, hBGuard⟩
  rcases hPlaced.next?_eq_some hNext with ⟨hBehind, -, hNone⟩
  have hExecutable := Evaluation.isExecutable_of_isGuard (e := b)
    (by rw [Evaluation.isGuard, hBGuard]; rfl)
  have hAfter := hNone first b hB hExecutable hBefore
  have hInside : c < first :=
    hPlaced.formed.ordered first c (hPlaced.formed.outer?_of_firstChild? hFirst)
  exact hPlaced.between n c id hIn (hInside.trans_le hAfter) (Nat.le_of_lt hBehind)

----
-- Loops and names
----

/- What is between something and what is in it is in it too. -/
theorem Placed.contains_between (hContains : u.Contains c s) (hAbove : c < x)
    (hBelow : x ≤ s) : u.Contains c x := by
  induction hContains with
  | direct hOuter => exact hPlaced.between _ c x hOuter hAbove hBelow
  | inside hOuter hRest ih =>
    rename_i id mid
    by_cases hLow : x ≤ mid
    · exact ih hLow
    · exact hRest.trans (hPlaced.between id mid x hOuter (Nat.lt_of_not_le hLow) hBelow)

/- The first statement of a construct comes right behind the construct. -/
theorem Placed.firstChild?_eq (hFirst : u.firstChild? c = some first) : first = c + 1 := by
  have hOuter := hPlaced.formed.outer?_of_firstChild? hFirst
  have hBelow := hPlaced.formed.ordered first c hOuter
  refine Nat.le_antisymm ?_ hBelow
  cases hPlaced.between first c (c + 1) hOuter (Nat.lt_succ_self c) hBelow with
  | direct hDirect =>
    rcases Option.bind_eq_some_iff.mp hFirst with ⟨e, hEval, -⟩
    have hListed := hPlaced.listed _ c hDirect
    rw [children, hEval] at hListed
    exact hPlaced.formed.firstChild?_le hEval hFirst hListed
  | inside hDirect hRest =>
    have hAbove := hRest.lt hPlaced.formed.ordered
    exact absurd (hPlaced.formed.ordered _ _ hDirect) (Nat.not_lt_of_le hAbove)

/- Nothing in a construct comes behind its last statement. -/
theorem Placed.le_lastChild?
    (hKind : u.kindAt? c = some kind) (hLast : u.lastChild? c = some last)
    (hContains : u.Contains c s) : s ≤ last := by
  have hOrdered := hPlaced.formed.ordered
  induction hContains with
  | direct hOuter =>
    rcases Option.bind_eq_some_iff.mp hLast with ⟨e, hEval, -⟩
    have hListed := hPlaced.listed _ c hOuter
    rw [children, hEval] at hListed
    exact hPlaced.formed.le_lastChild? hEval hLast hListed
  | inside hOuter hRest ih =>
    rename_i id mid
    refine Nat.le_of_not_lt fun hBehind => ?_
    rcases Nat.lt_or_eq_of_le ih with hBefore | rfl
    · -- the last statement would be in a part of the construct
      have hInside := hPlaced.between id mid last hOuter hBefore (Nat.le_of_lt hBehind)
      have hBelow := hRest.lt hOrdered
      rcases hInside.cases_outer (hPlaced.formed.outer?_of_lastChild? hLast) with rfl | hAround
      · exact Nat.lt_irrefl _ hBelow
      · exact Nat.lt_asymm hBelow (hAround.lt hOrdered)
    · -- nothing is in the last statement
      rcases hPlaced.formed.construct hKind with ⟨-, last, -, ends, -, hLast', -, hEnds, -⟩
      cases hLast.symm.trans hLast'
      rcases Option.bind_eq_some_iff.mp hEnds with ⟨e, hEval, hSome⟩
      have hListed := hPlaced.listed id mid hOuter
      rw [children, hEval, Option.elim_some,
        hPlaced.formed.guards mid e hEval (by rw [Evaluation.isGuard, hSome]; rfl)] at hListed
      cases hListed

/- The statements of a loop. -/
theorem Placed.loop (hKind : u.kindAt? c = some .do) :
    (∃ control name, u.guardAt? (c + 1) = some ⟨.do control, name⟩) ∧
      ∃ last name, u.lastChild? c = some last ∧ u.guardAt? last = some ⟨.endDo, name⟩ := by
  rcases hPlaced.formed.construct hKind with
    ⟨first, last, ⟨begins, name⟩, ⟨ends, name'⟩, hFirst, hLast, hBegins, hEnds, hBegun, hEnded, -⟩
  cases begins <;> cases hBegun
  cases ends <;> cases hEnded
  rw [hPlaced.firstChild?_eq hFirst] at hBegins
  exact ⟨⟨_, name, hBegins⟩, last, name', hLast, hEnds⟩

/- The loop that a `do` begins. -/
theorem Placed.loop_of_do {control : Option LoopControl}
    (hGuard : u.guardAt? k = some ⟨.do control, name⟩) :
    ∃ c, k = c + 1 ∧ u.outer? k = some c ∧ u.kindAt? c = some .do := by
  rcases hPlaced.guard_cases hGuard with ⟨c, kind, _, _, hOuter, hKind, hFirst, -, hCases⟩
  cases kind <;> rcases hCases with ⟨rfl, hBegun⟩ | ⟨-, ⟨-, hEnded⟩ | ⟨-, hContinued⟩⟩ <;>
    try contradiction
  exact ⟨c, hPlaced.firstChild?_eq hFirst, hOuter, hKind⟩

/- The loop that an `end do` ends. -/
theorem Placed.loop_of_endDo
    (hGuard : u.guardAt? k = some ⟨.endDo, name⟩) : ∃ c, c + 1 < k ∧ u.outer? k = some c ∧
      u.kindAt? c = some .do ∧ u.lastChild? c = some k := by
  rcases hPlaced.guard_cases hGuard with ⟨c, kind, _, _, hOuter, hKind, hFirst, hLast, hCases⟩
  cases kind <;> rcases hCases with ⟨-, hBegun⟩ | ⟨hBefore, ⟨rfl, hEnded⟩ | ⟨-, hContinued⟩⟩ <;>
    try contradiction
  exact ⟨c, hPlaced.firstChild?_eq hFirst ▸ hBefore, hOuter, hKind, hLast⟩

/- One place further, a loop has ended or another one has begun. -/
theorem Placed.spans_succ {k : Nat} : u.Spans (k + 1) c ↔
      (u.Spans k c ∧ u.lastChild? c ≠ some k) ∨ u.kindAt? c = some .do ∧ k = c + 1 := by
  constructor
  · rintro ⟨hKind, hContains, hAfter⟩
    rcases Nat.lt_or_eq_of_le (Nat.le_of_lt_succ hAfter) with hLater | hFirst
    · have hBefore := hPlaced.contains_between hContains (Nat.lt_of_succ_lt hLater) (Nat.le_succ k)
      refine .inl ⟨⟨hKind, hBefore, hLater⟩, fun hLast => ?_⟩
      exact Nat.not_succ_le_self k (hPlaced.le_lastChild? hKind hLast hContains)
    · exact .inr ⟨hKind, hFirst.symm⟩
  · intro hEither
    have hKind : u.kindAt? c = some .do := hEither.elim (·.1.1) (·.1)
    rcases hPlaced.loop hKind with ⟨-, last, name, hLast, hEnds⟩
    rcases hPlaced.loop_of_endDo hEnds with ⟨d, hBefore, hOuter, -⟩
    cases hOuter.symm.trans (hPlaced.formed.outer?_of_lastChild? hLast)
    -- the end of the loop is still to come
    have hBelow : c < k ∧ k < last := by
      rcases hEither with ⟨⟨-, hContains, hAfter⟩, hNot⟩ | ⟨-, rfl⟩
      · refine ⟨Nat.lt_of_succ_lt hAfter, Nat.lt_of_le_of_ne
          (hPlaced.le_lastChild? hKind hLast hContains) ?_⟩
        rintro rfl
        exact hNot hLast
      · exact ⟨Nat.lt_succ_self c, hBefore⟩
    exact ⟨hKind, hPlaced.between last c (k + 1) hOuter (Nat.lt_succ_of_lt hBelow.1) hBelow.2,
      Nat.succ_lt_succ hBelow.1⟩

/-
  The loops that are open in front of an evaluation, the
  innermost one first.
-/
theorem Placed.loops (k : Nat) : (u.scopesBefore k).loops.Pairwise (· > ·) ∧
      ∀ c, c ∈ (u.scopesBefore k).loops ↔ u.Spans k c := by
  induction k with
  | zero => exact ⟨.nil, fun c => ⟨nofun, fun hSpans => absurd hSpans.2.2 (Nat.not_lt_zero _)⟩⟩
  | succ k ih =>
    rcases ih with ⟨hSorted, hOpen⟩
    simp only [hPlaced.spans_succ, ← hOpen]
    -- loops begin and end at these statements only
    have hNoDo : ∀ c, (∀ control name, u.guardAt? k ≠ some ⟨.do control, name⟩) →
          ¬ (u.kindAt? c = some .do ∧ k = c + 1) := by
      rintro c hNone ⟨hKind, rfl⟩
      rcases (hPlaced.loop hKind).1 with ⟨control, name, hDo⟩
      exact hNone control name hDo
    have hNoEnd : ∀ c ∈ (u.scopesBefore k).loops, (∀ name, u.guardAt? k ≠ some ⟨.endDo, name⟩) →
          u.lastChild? c ≠ some k := by
      intro c hIn hNone hLast
      rcases (hPlaced.loop ((hOpen c).mp hIn).1).2 with ⟨last, name, hLast', hEnd⟩
      cases hLast.symm.trans hLast'
      exact hNone name hEnd
    have hQuiet : (∀ control name, u.guardAt? k ≠ some ⟨.do control, name⟩) →
          (∀ name, u.guardAt? k ≠ some ⟨.endDo, name⟩) → ∀ c, c ∈ (u.scopesBefore k).loops ↔
            (c ∈ (u.scopesBefore k).loops ∧ u.lastChild? c ≠ some k) ∨
              u.kindAt? c = some .do ∧ k = c + 1 := by
      intro hDo hEnd c
      rw [or_iff_left (hNoDo c hDo)]
      exact ⟨fun hIn => ⟨hIn, hNoEnd c hIn hEnd⟩, And.left⟩
    cases hGuard : u.guardAt? k with
    | none =>
      rw [scopesBefore_succ_of_none hGuard]
      exact ⟨hSorted, hQuiet (by simp [hGuard]) (by simp [hGuard])⟩
    | some g =>
      rcases g with ⟨g, name⟩
      cases g with
      | «do» control =>
        rcases hPlaced.loop_of_do hGuard with ⟨c, rfl, hOuter, hKind⟩
        rw [scopesBefore_succ_of_guard hGuard hOuter]
        refine ⟨List.pairwise_cons.mpr ⟨fun d hIn => ?_, hSorted⟩, fun d => ?_⟩
        · exact Nat.lt_of_succ_lt_succ ((hOpen d).mp hIn).2.2
        · refine List.mem_cons.trans (or_comm.trans (or_congr ?_ ?_))
          · exact ⟨fun hIn => ⟨hIn, hNoEnd d hIn (by simp [hGuard])⟩, And.left⟩
          · refine ⟨fun hSame => ⟨hSame ▸ hKind, by rw [hSame]⟩, fun hBoth => ?_⟩
            exact (Nat.succ.inj hBoth.2).symm
      | endDo =>
        rcases hPlaced.loop_of_endDo hGuard with ⟨c, hBefore, hOuter, hKind, hLast⟩
        rw [scopesBefore_succ_of_guard hGuard hOuter]
        have hIn := (hOpen c).mpr ⟨hKind, .direct hOuter, hBefore⟩
        have hAll : ∀ d ∈ (u.scopesBefore k).loops, d ≤ c := by
          intro d hMember
          rcases ((hOpen d).mp hMember).2.1.cases_outer hOuter with rfl | hAround
          · exact Nat.le_refl d
          · exact Nat.le_of_lt (hAround.lt hPlaced.formed.ordered)
        have hEnded : ∀ d, u.lastChild? d ≠ some k ↔ d ≠ c := by
          refine fun d => not_congr ⟨fun hSame => ?_, fun hSame => hSame ▸ hLast⟩
          exact Option.some.inj ((hPlaced.formed.outer?_of_lastChild? hSame).symm.trans hOuter)
        -- the loop that ends is the innermost one
        simp only [hEnded, or_iff_left (hNoDo _ (by simp [hGuard])), Scopes.afterGuard]
        cases hLoops : (u.scopesBefore k).loops with
        | nil =>
          rw [hLoops] at hIn
          cases hIn
        | cons d rest =>
          rw [hLoops] at hIn hSorted hAll
          rcases List.pairwise_cons.mp hSorted with ⟨hOut, hRest⟩
          have hSame : c = d := by
            rcases List.mem_cons.mp hIn with hSame | hLater
            · exact hSame
            · exact absurd (hOut c hLater) (Nat.not_lt_of_le (hAll d (.head _)))
          subst hSame
          refine ⟨hRest, fun x => ?_⟩
          rw [List.mem_cons]
          refine ⟨fun hLater => ⟨.inr hLater, Nat.ne_of_lt (hOut x hLater)⟩, ?_⟩
          exact fun ⟨hEither, hOther⟩ => hEither.resolve_left hOther
      | _ =>
        rcases hPlaced.guard_cases hGuard with ⟨c, kind, first, last, hOuter, -⟩
        rw [scopesBefore_succ_of_guard hGuard hOuter]
        exact ⟨hSorted, hQuiet (by simp [hGuard]) (by simp [hGuard])⟩

/- A construct has its name from one of its statements. -/
theorem Placed.nameAt?_of_mem {k : Nat} {n : String} (hIn : (n, c) ∈ (u.scopesBefore k).names) :
    ∃ i < k, u.nameAt? i = some n ∧ u.outer? i = some c := by
  induction k with
  | zero => cases hIn
  | succ k ih =>
    have hEarlier : (n, c) ∈ (u.scopesBefore k).names →
          ∃ i < k + 1, u.nameAt? i = some n ∧ u.outer? i = some c := by
      intro hOld
      rcases ih hOld with ⟨i, hBelow, hRest⟩
      exact ⟨i, Nat.lt_succ_of_lt hBelow, hRest⟩
    cases hGuard : u.guardAt? k with
    | none => exact hEarlier (scopesBefore_succ_of_none hGuard ▸ hIn)
    | some g =>
      rcases hPlaced.guard_cases hGuard with ⟨d, _, _, _, hOuter, -⟩
      rw [scopesBefore_succ_of_guard hGuard hOuter, Scopes.afterGuard] at hIn
      split at hIn
      · rename_i hBegins
        rcases List.mem_append.mp hIn with hNew | hOld
        · rcases Option.map_eq_some_iff.mp (Option.mem_toList.mp hNew) with ⟨_, hName, hPair⟩
          cases hPair
          refine ⟨k, Nat.lt_succ_self k, ?_, hOuter⟩
          rw [nameAt?, hGuard, Option.bind_some, Guard.name?, if_pos hBegins, hName]
        · exact hEarlier hOld
      · exact hEarlier hIn

end FunctionUnit

end FortranIR
