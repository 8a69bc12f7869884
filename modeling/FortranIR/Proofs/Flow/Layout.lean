import FortranIR.Flow.Unit
import Mathlib

/-
  This file proves how the evaluations of a subprogram are laid
  out: they are numbered in the order of the source, and each of
  them knows the construct or directive that it is directly in,
  and lists what is directly in it. The statements of a
  construct are those of its arms and its end statement.

  Main declarations:
    * `Outline.Formed`
    * `FunctionUnit.ofHead_nests`
-/

namespace FortranIR

open Evaluation Outline Node

variable {outer : Option EvalId} {t : Outline Numbered} {q : Numbered}

----
-- Outlines
----

namespace Outline

variable {α β : Type}

theorem flattenAll_append (ts us : List (Outline α)) :
    flattenAll (ts ++ us) = flattenAll ts ++ flattenAll us := by
  induction ts with
  | nil => rfl
  | cons t ts ih => rw [List.cons_append, flattenAll, flattenAll, ih, List.append_assoc]

mutual

theorem flatten_map (f : α → β) : ∀ t : Outline α, flatten (map f t) = (flatten t).map f
  | node a ts => by rw [map, flatten, flatten, List.map_cons, flattenAll_mapAll f ts]

theorem flattenAll_mapAll (f : α → β) : ∀ ts : List (Outline α),
      flattenAll (mapAll f ts) = (flattenAll ts).map f
  | [] => rfl
  | t :: ts => by
      rw [mapAll, flattenAll, flattenAll, List.map_append, flatten_map f t, flattenAll_mapAll f ts]

end

theorem mem_flattenAll {ts : List (Outline α)} {a : α} :
    a ∈ flattenAll ts ↔ ∃ t ∈ ts, a ∈ flatten t := by
  induction ts with
  | nil => simp [flattenAll]
  | cons t ts ih => simp [flattenAll, ih]

theorem root_mem_flattenAll {ts : List (Outline α)} {t : Outline α}
    (hMember : t ∈ ts) : t.root ∈ flattenAll ts := by
  refine mem_flattenAll.mpr ⟨t, hMember, ?_⟩
  rcases t with ⟨a, nested⟩
  exact .head _

theorem mapAll_eq_map (f : α → β) (ts : List (Outline α)) : mapAll f ts = ts.map (map f) := by
  induction ts with
  | nil => rfl
  | cons t ts ih => rw [mapAll, ih, List.map_cons]

end Outline

----
-- Source order
----

/- What is written in the source for an evaluation. -/
def Evaluation.written (e : Evaluation) : Evaluation :=
  { node := e.node, source := e.source, label := e.label }

namespace Action

/- The action of an `if`, and its own action, without labels. -/
def listing : Action → List Evaluation
  | .if ⟨_, source, a⟩ => { node := .action a, source } :: listing a
  | _ => []

/- The action that is performed if all conditions hold. -/
def innermost : Action → Action
  | .if ⟨_, _, a⟩ => innermost a
  | a => a

/- The action does nothing. -/
def isContinue : Action → Bool
  | .continue => true
  | _ => false

end Action

/- What is written for a statement. -/
def Statement.written {α : Type} (node : α → EvalNode) (s : Statement α) : Evaluation :=
  { node := node s.stmt, source := s.source, label := s.label }

namespace Node

mutual

/- What is written for a node, a construct before its parts. -/
def listing : Node → List Evaluation
  | .action s => s.written .action :: s.stmt.listing
  | .nonExecutable s => [s.written .nonExecutable]
  | .construct kind as finish =>
    { node := .construct kind } :: (armsListing as ++ [finish.written .guard])
  | .directive name body => { node := .directive name } :: nodesListing body

def nodesListing : List Node → List Evaluation
  | [] => []
  | n :: rest => listing n ++ nodesListing rest

def armsListing : List (Arm Node) → List Evaluation
  | [] => []
  | a :: rest => armListing a ++ armsListing rest

def armListing : Arm Node → List Evaluation
  | ⟨guard, body⟩ => guard.written .guard :: nodesListing body

end

/- The last statement of a node stands for itself and does nothing. -/
def endsWithContinue : Node → Bool
  | .action s => s.stmt.innermost.isContinue
  | _ => false

end Node

namespace SubprogramHead

/- The body ends with a target for branches of its own. -/
def endsWithContinue (s : SubprogramHead) : Bool := s.body.getLast?.any Node.endsWithContinue

/-
  What is written in a subprogram, in the order of the source.
  Its end statement is a target for branches, unless the body
  ends with such a target and the end has no label.
-/
def listing (s : SubprogramHead) : List Evaluation := Node.nodesListing s.body ++
    if s.endsWithContinue && s.finish.label.isNone then []
    else [s.finish.written fun _ => .action .continue]

end SubprogramHead

namespace Node

variable (p : ConstructKind → List GuardKind → GuardKind → Bool)

mutual

/-
  Every construct of a node has a property of its kind, the
  statements of its arms and its end statement.
-/
def every : Node → Bool
  | .action _ => true
  | .nonExecutable _ => true
  | .construct kind as finish =>
    p kind (as.map fun a => a.guard.stmt.kind) finish.stmt.kind && everyArm as
  | .directive _ body => everyNode body

def everyNode : List Node → Bool
  | [] => true
  | n :: ns => every n && everyNode ns

def everyArm : List (Arm Node) → Bool
  | [] => true
  | a :: as => inArm a && everyArm as

def inArm : Arm Node → Bool
  | ⟨_, body⟩ => everyNode body

end

end Node

----
-- Formed outlines
----

/- The construct statement at the root of an outline. -/
def Outline.guard? (t : Outline Numbered) : Option Guard := t.root.2.guard?

/- An evaluation as it is before the analysis. -/
def Evaluation.laid (e : Evaluation) : Evaluation := { e with
    controlNext := none
    exit := none
    isNewBlock := false
    isUnstructured := false
    localBlocks := 0 }

/- An evaluation as it is before it is linked to others. -/
def Evaluation.bare (e : Evaluation) : Evaluation := { e.laid with place := 0, lexicalNext := none }

/-
  An outline as it is laid out, directly in the evaluation that
  is given, which may be a construct.

  Each evaluation has a larger number than what it is directly
  in and lists what is directly in it. Nothing is in a
  statement, and construct statements are directly in
  constructs. The last one in a construct is its end statement,
  the first one is the statement of its first arm, and the
  construct statements in between are those of its other arms.
-/
inductive Outline.Formed (p : ConstructKind → List GuardKind → GuardKind → Bool) :
    Option EvalId → Bool → Outline Numbered → Prop where
  | node {outer : Option EvalId} {inConstruct : Bool} {id : EvalId} {e : Evaluation}
      {nested : List (Outline Numbered)} (hOuter : e.outer = outer)
      (hBelow : ∀ o, outer = some o → o < id) (hBare : e.bare = e)
      (hChildren : e.children = nested.map fun t => t.root.1)
      (hGuard : e.isGuard = true → inConstruct = true) (hLeaf : e.isStatement = true → nested = [])
      (hConstruct : ∀ kind, e.node = .construct kind → ∃ gs last init t,
            p kind (gs.map Guard.kind) last.kind = true ∧ nested = init ++ [t] ∧
            t.guard? = some last ∧ init.filterMap Outline.guard? = gs ∧
            init.head?.bind Outline.guard? = gs.head?)
      (hNested : ∀ t ∈ nested, Formed p (some id) e.isConstruct t) :
      Formed p outer inConstruct (.node (id, e) nested)

/- A part of an outline is formed, and all of it is in the outline. -/
theorem Outline.Formed.part
    (hFormed : Formed p outer inConstruct t) (hMember : q ∈ flatten t) :
    ∃ outer' inside nested, Formed p outer' inside (.node q nested) ∧
      (∀ r ∈ flattenAll nested, r ∈ flatten t) ∧ (outer' = outer ∧ inside = inConstruct ∨
        ∃ c ∈ flatten t, outer' = some c.1 ∧ inside = c.2.isConstruct) := by
  induction hFormed with
  | node hOuter hBelow hBare hChildren hGuard hLeaf hConstruct hNested ih =>
    rename_i outer inConstruct id e nested
    rcases List.mem_cons.mp hMember with rfl | hInside
    · exact ⟨outer, inConstruct, nested,
        .node hOuter hBelow hBare hChildren hGuard hLeaf hConstruct hNested,
        fun r hIn => .tail _ hIn, .inl ⟨rfl, rfl⟩⟩
    · rcases mem_flattenAll.mp hInside with ⟨t, hIn, hAt⟩
      rcases ih t hIn hAt with ⟨outer', inside, inner, hInner, hAll, hDirect⟩
      have hPart : ∀ r ∈ flatten t, r ∈ (id, e) :: flattenAll nested :=
        fun r hR => .tail _ (mem_flattenAll.mpr ⟨t, hIn, hR⟩)
      refine ⟨outer', inside, inner, hInner, fun r hR => hPart r (hAll r hR), .inr ?_⟩
      rcases hDirect with hHere | ⟨c, hC, hRest⟩
      · exact ⟨(id, e), .head _, hHere⟩
      · exact ⟨c, hPart c hC, hRest⟩

----
-- Layouts
----

namespace Layout

open Outline

/-
  Outlines that take the numbers from one to another one, with
  the construct statements among them and all that is written
  for them.
-/
structure Laid (p : ConstructKind → List GuardKind → GuardKind → Bool) (outer : Option EvalId)
    (inConstruct : Bool) (gs : List Guard) (es : List Evaluation) (first : EvalId)
    (ts : List (Outline Numbered)) (next : EvalId) : Prop where
  next : first + (flattenAll ts).length = next
  numbers : (flattenAll ts).map Prod.fst = List.range' first (flattenAll ts).length
  formed : ∀ t ∈ ts, Formed p outer inConstruct t
  guards : ts.filterMap Outline.guard? = gs
  written : (flattenAll ts).map (fun q => q.2.written) = es

variable {p : ConstructKind → List GuardKind → GuardKind → Bool} {outer : Option EvalId}
variable {inConstruct : Bool} {gs hs : List Guard} {es fs : List Evaluation} {α : Type}
variable {first next last : EvalId} {ts us : List (Outline Numbered)}

theorem Laid.nil : Laid p outer inConstruct [] [] first [] first := ⟨rfl, rfl, by simp, rfl, rfl⟩

theorem Laid.append (hFirst : Laid p outer inConstruct gs es first ts next)
    (hSecond : Laid p outer inConstruct hs fs next us last) :
    Laid p outer inConstruct (gs ++ hs) (es ++ fs) first (ts ++ us) last where
  next := by rw [flattenAll_append, List.length_append, ← hSecond.next, ← hFirst.next, Nat.add_assoc]
  numbers := by
    rw [flattenAll_append, List.map_append, hFirst.numbers,
      hSecond.numbers, List.length_append, ← hFirst.next, List.range'_append_1]
  formed t hMember := (List.mem_append.mp hMember).elim (hFirst.formed t) (hSecond.formed t)
  guards := by rw [List.filterMap_append, hFirst.guards, hSecond.guards]
  written := by rw [flattenAll_append, List.map_append, hFirst.written, hSecond.written]

theorem Laid.le (hLaid : Laid p outer inConstruct gs es first ts next) : first ≤ next :=
  hLaid.next ▸ Nat.le_add_right _ _

/- An evaluation has the number of its place. -/
theorem Laid.fst_eq (hLaid : Laid p outer inConstruct gs es first ts next) {k : Nat}
    (hAt : (flattenAll ts)[k]? = some q) : q.1 = first + k := by
  have hNumber : (List.range' first (flattenAll ts).length)[k]? = some q.1 := by
    rw [← hLaid.numbers, List.getElem?_map, hAt]
    rfl
  have hBelow := (List.getElem?_eq_some_iff.mp hNumber).1
  rw [List.length_range'] at hBelow
  rw [List.getElem?_range' hBelow, Option.some.injEq, Nat.one_mul] at hNumber
  exact hNumber.symm

/- An evaluation and what is nested in it. -/
theorem Laid.node {e : Evaluation} (hFormed : Formed p outer inConstruct (.node (first, e) ts))
    (hNested : Laid p (some first) e.isConstruct gs es (first + 1) ts next) :
    Laid p outer inConstruct e.guard?.toList (e.written :: es) first [.node (first, e) ts] next := by
  have hFlat : flattenAll [.node (first, e) ts] = (first, e) :: flattenAll ts := by
    rw [flattenAll, flatten, flattenAll, List.append_nil]
  refine ⟨?_, ?_, by simpa using hFormed, ?_, ?_⟩
  · rw [hFlat, ← hNested.next]
    exact (Nat.add_right_comm first (flattenAll ts).length 1)
  · rw [hFlat, List.map_cons, List.length_cons, List.range'_succ, hNested.numbers]
  · rw [List.filterMap_cons, Outline.guard?, Outline.root]
    cases e.guard? <;> rfl
  · rw [hFlat, List.map_cons, hNested.written]

/- What a layout gives is laid out from its first number on. -/
def Lays (p : ConstructKind → List GuardKind → GuardKind → Bool) (outer : Option EvalId)
    (inConstruct : Bool) (gs : List Guard) (es : List Evaluation)
    (layout : Layout (List (Outline Numbered))) : Prop :=
  ∀ first, (∀ o, outer = some o → o < first) →
    Laid p outer inConstruct gs es first (layout.run first).1 (layout.run first).2

theorem Lays.nil : Lays p outer inConstruct [] [] (pure []) := fun _ _ => .nil

theorem Lays.append {x y : Layout (List (Outline Numbered))}
    (hFirst : Lays p outer inConstruct gs es x) (hSecond : Lays p outer inConstruct hs fs y) :
    Lays p outer inConstruct (gs ++ hs) (es ++ fs) (do return (← x) ++ (← y)) := by
  intro first hBelow
  have hLaid := hFirst first hBelow
  refine hLaid.append (hSecond _ fun o hOuter => ?_)
  exact Nat.lt_of_lt_of_le (hBelow o hOuter) hLaid.le

/- An evaluation in front of others. -/
theorem Lays.cons {x : Layout (Outline Numbered)} {y : Layout (List (Outline Numbered))}
    (hFirst : Lays p outer inConstruct gs es (do return [← x]))
    (hSecond : Lays p outer inConstruct hs fs y) :
    Lays p outer inConstruct (gs ++ hs) (es ++ fs) (do return (← x) :: (← y)) :=
  hFirst.append hSecond

/- A statement, which has nothing in it. -/
theorem statement_lays (outer : Option EvalId) (node : α → EvalNode) (s : Statement α)
    (hStatement : (s.written node).isStatement = true)
    (hGuard : (s.written node).isGuard = true → inConstruct = true) :
    Lays p outer inConstruct (s.written node).guard?.toList [s.written node]
      (do return [← statement outer node s]) := by
  intro first hBelow
  refine Laid.node (e := { s.written node with outer })
    (.node rfl hBelow rfl rfl hGuard (fun _ => rfl) ?_ (by simp)) .nil
  intro kind hKind
  have hNode : node s.stmt = .construct kind := hKind
  simp [Statement.written, isStatement, isConstruct, hNode] at hStatement

theorem action_lays (outer : Option EvalId) (s : Statement Action) :
    Lays p outer inConstruct [] [s.written .action] (do return [← statement outer .action s]) :=
  statement_lays outer .action s rfl nofun

theorem guard_lays (id : EvalId) (s : Statement Guard) : Lays p (some id) true [s.stmt]
      [s.written .guard] (do return [← statement (some id) .guard s]) :=
  statement_lays (some id) .guard s rfl fun _ => rfl

/- A construct or directive, and what is in it. -/
theorem group_lays (outer : Option EvalId) {node : EvalNode}
    (hGroup : ({ node } : Evaluation).isStatement = false)
    (hGuard : ({ node } : Evaluation).guard? = none)
    {inside : EvalId → Layout (List (Outline Numbered))}
    (hInside : ∀ id, Lays p (some id) ({ node } : Evaluation).isConstruct gs es (inside id))
    (hConstruct : ∀ id kind, node = .construct kind → ∃ gs last init t,
        p kind (gs.map Guard.kind) last.kind = true ∧
        ((inside id).run (id + 1)).1 = init ++ [t] ∧ t.guard? = some last ∧
        init.filterMap Outline.guard? = gs ∧ init.head?.bind Outline.guard? = gs.head?) :
    Lays p outer inConstruct [] ({ node } :: es) (do return [← group outer node inside]) := by
  intro first hBelow
  have hNested := hInside first (first + 1) (by rintro o ⟨⟩; exact Nat.lt_succ_self _)
  let e : Evaluation :=
    { node, outer, children := ((inside first).run (first + 1)).1.map fun t => t.root.1 }
  have hNone : e.guard? = none := hGuard
  have hFormed : Formed p outer inConstruct (.node (first, e) ((inside first).run (first + 1)).1) := by
    refine .node rfl hBelow rfl rfl (fun hIs => ?_) (fun hIs => ?_) (hConstruct first)
      hNested.formed
    · rw [isGuard, hNone] at hIs
      cases hIs
    · exact absurd (hGroup.symm.trans hIs) Bool.false_ne_true
  have hLaid := Laid.node hFormed hNested
  rw [hNone] at hLaid
  exact hLaid

theorem conditional_lays (outer : Option EvalId) (a : Action) :
    Lays p outer inConstruct [] a.listing (conditional outer a) := by
  fun_induction conditional with
  | case1 _ source a ih =>
    exact (action_lays outer ⟨none, source, a⟩).cons ih
  | case2 a hOther =>
    rw [Action.listing]
    · exact .nil
    · exact hOther

/- The first evaluation of the arms of a construct. -/
theorem arms_head (construct : EvalId) (as : List (Arm Node)) (first : EvalId) :
    ((arms construct as).run first).1.head?.bind guard? =
      (as.map fun a => a.guard.stmt).head? := by
  cases as with
  | nil =>
    rfl
  | cons a rest =>
    rcases a with ⟨guard, body⟩
    rfl

mutual

theorem node_lays {inConstruct : Bool} (outer : Option EvalId) :
    ∀ n : Node, n.every p = true → Lays p outer inConstruct [] n.listing (node outer n)
  | .action s => by
      intro _
      exact (action_lays outer s).cons (conditional_lays outer s.stmt)
  | .nonExecutable s => by
      intro _
      exact statement_lays outer .nonExecutable s rfl nofun
  | .construct kind as finish => by
      intro hEvery
      rw [every, Bool.and_eq_true] at hEvery
      refine group_lays outer rfl rfl
        (fun id => (arms_lays id as hEvery.2).append (guard_lays id finish)) ?_
      rintro id kind ⟨⟩
      have hArms := arms_lays id as hEvery.2 (id + 1) (by rintro o ⟨⟩; exact Nat.lt_succ_self _)
      refine ⟨as.map fun a => a.guard.stmt, finish.stmt, ((arms id as).run (id + 1)).1, _, ?_,
        rfl, rfl, hArms.guards, arms_head id as (id + 1)⟩
      rw [List.map_map]
      exact hEvery.1
  | .directive name body => by
      intro hEvery
      exact group_lays outer rfl rfl (fun id => nodes_lays (some id) body hEvery) nofun

theorem nodes_lays {inConstruct : Bool} (outer : Option EvalId) : ∀ ns : List Node,
      everyNode p ns = true →
      Lays p outer inConstruct [] (nodesListing ns) (nodes outer ns)
  | [] => by
      intro _
      exact .nil
  | n :: rest => by
      intro hEvery
      rw [everyNode, Bool.and_eq_true] at hEvery
      exact (node_lays outer n hEvery.1).append (nodes_lays outer rest hEvery.2)

theorem arms_lays (construct : EvalId) : ∀ as : List (Arm Node), everyArm p as = true →
      Lays p (some construct) true (as.map fun a => a.guard.stmt) (armsListing as)
        (arms construct as)
  | [] => by
      intro _
      exact .nil
  | a :: rest => by
      intro hEvery
      rw [everyArm, Bool.and_eq_true] at hEvery
      exact (arm_lays construct a hEvery.1).append (arms_lays construct rest hEvery.2)

theorem arm_lays (construct : EvalId) : ∀ a : Arm Node, inArm p a = true →
      Lays p (some construct) true [a.guard.stmt] (armListing a) (arm construct a)
  | ⟨guard, body⟩ => by
      intro hEvery
      exact (guard_lays construct guard).cons (nodes_lays (some construct) body hEvery)

end

----
-- Ends of bodies
----

theorem endsWithContinue_concat (ts : List (Outline Numbered)) (t : Outline Numbered) :
    endsWithContinue (ts ++ [t]) = t.root.2.action?.any Action.isContinue := by
  rw [endsWithContinue, List.getLast?_concat, Option.bind_some]
  cases t.root.2.action? with
  | none => rfl
  | some a => cases a <;> rfl

/- The action of an `if` ends a body in its place. -/
theorem endsWithContinue_conditional (outer : Option EvalId) :
    ∀ (a : Action) (first : EvalId) (ts : List (Outline Numbered)) (t : Outline Numbered),
      t.root.2.action? = some a →
      endsWithContinue (ts ++ t :: ((conditional outer a).run first).1) = a.innermost.isContinue
  | .if ⟨label, source, a⟩, first, ts, t => by
      intro _
      rw [List.append_cons]
      exact endsWithContinue_conditional outer a _ _ _ rfl
  | .assignment, _, ts, t | .continue, _, ts, t |
    .call _, _, ts, t | .cycle _, _, ts, t | .exit _, _, ts, t |
    .goto _, _, ts, t | .computedGoto _, _, ts, t |
    .arithmeticIf _ _, _, ts, t | .assign _ _, _, ts, t |
    .assignedGoto _, _, ts, t | .return, _, ts, t |
    .stop, _, ts, t | .io _ _ _, _, ts, t | .other _, _, ts, t => by
      intro hAction
      exact (endsWithContinue_concat ts t).trans (by rw [hAction]; rfl)

theorem endsWithContinue_node (outer : Option EvalId) (n : Node) (first : EvalId)
    (ts : List (Outline Numbered)) :
    endsWithContinue (ts ++ ((node outer n).run first).1) = n.endsWithContinue := by
  cases n with
  | action s =>
    exact endsWithContinue_conditional outer s.stmt (first + 1) ts (.node (first,
        { node := .action s.stmt, source := s.source, label := s.label, outer }) []) rfl
  | nonExecutable | construct | directive =>
    exact endsWithContinue_concat ts _

theorem endsWithContinue_nodes (outer : Option EvalId) (ns : List Node) (first : EvalId)
    (ts : List (Outline Numbered)) :
    endsWithContinue (ts ++ ((nodes outer ns).run first).1) = ns.getLast?.elim (endsWithContinue ts)
        Node.endsWithContinue := by
  induction ns generalizing first ts with
  | nil =>
    exact congrArg endsWithContinue (List.append_nil ts)
  | cons n rest ih =>
    have hRun : ((nodes outer (n :: rest)).run first).1 = ((node outer n).run first).1 ++
            ((nodes outer rest).run ((node outer n).run first).2).1 := by
      rfl
    rw [hRun, ← List.append_assoc, ih, endsWithContinue_node, List.getLast?_cons]
    cases rest.getLast? <;> rfl

/- A layout of a subprogram gives what is written in it. -/
theorem body_lays {s : SubprogramHead} (hEvery : everyNode p s.body = true) :
    Lays p none false [] s.listing (body s.body s.finish) := by
  intro first hBelow
  have hNodes : Lays p none false _ _ _ := nodes_lays none s.body hEvery
  have hLast : Lays p none false [] _ _ :=
    statement_lays none (fun _ => .action .continue) s.finish rfl nofun
  have hEnds : endsWithContinue ((nodes none s.body).run first).1 = s.endsWithContinue := by
    have hSame := endsWithContinue_nodes none s.body first []
    rw [List.nil_append] at hSame
    rw [hSame, SubprogramHead.endsWithContinue]
    cases s.body.getLast? <;> rfl
  have hRun : (body s.body s.finish).run first = let r := (nodes none s.body).run first
        (if endsWithContinue r.1 && s.finish.label.isNone then return r.1
        else do
          return r.1 ++ [← statement none (fun _ => .action .continue) s.finish] :
          Layout _).run r.2 := rfl
  rw [hRun, SubprogramHead.listing]
  simp only [hEnds]
  split
  · rw [List.append_nil]
    exact hNodes first hBelow
  · exact hNodes.append hLast first hBelow

end Layout

----
-- Links
----

/- Links between evaluations leave what does not read them. -/
theorem Evaluation.getElem?_link_map {α : Type} {f : Evaluation → α}
    (hKept : ∀ (e : Evaluation) place next, f { e with place, lexicalNext := next } = f e)
    (id place : Nat) (es : List Evaluation) (k : Nat) :
    (link id place es)[k]?.map f = es[k]?.map f := by
  induction es generalizing id place k with
  | nil => rfl
  | cons e es ih =>
    unfold link
    split
    · cases k with
      | zero => simp [hKept]
      | succ k => simpa using ih (id + 1) (place + 1) k
    · split
      · cases k with
        | zero => simpa using hKept e e.place (firstExecutable? (id + 1) es)
        | succ k => simpa using ih (id + 1) place k
      · cases k with
        | zero => rfl
        | succ k => simpa using ih (id + 1) place k

namespace Evaluation

/- What the analysis of branches never changes. -/
def fixed (e : Evaluation) : EvalNode × Option EvalId × List EvalId := (e.node, e.outer, e.children)

theorem length_link (id place : Nat) (es : List Evaluation) :
    (link id place es).length = es.length := by
  induction es generalizing id place with
  | nil => rfl
  | cons e es ih =>
    unfold link
    split
    · simp [ih]
    · split <;> simp [ih]

end Evaluation

----
-- Units
----

namespace FunctionUnit

open Outline

variable {parent : UnitParent} {source : SubprogramHead} {id : EvalId}

/- The evaluations of a subprogram with their numbers. -/
def numbered (source : SubprogramHead) : List (Outline Numbered) :=
  ((Layout.body source.body source.finish).run 0).1

mutual

/- Every node has the property that always holds. -/
theorem every_true : ∀ n : Node, n.every (fun _ _ _ => true) = true
  | .action _ => rfl
  | .nonExecutable _ => rfl
  | .construct _ as _ => by
      rw [every, everyArm_true as]
      rfl
  | .directive _ body => by
      exact everyNode_true body

theorem everyNode_true : ∀ ns : List Node, everyNode (fun _ _ _ => true) ns = true
  | [] => rfl
  | n :: ns => by
      rw [everyNode, every_true n, everyNode_true ns]
      rfl

theorem everyArm_true : ∀ as : List (Arm Node), everyArm (fun _ _ _ => true) as = true
  | [] => rfl
  | ⟨_, body⟩ :: as => by
      rw [everyArm, inArm, everyNode_true body, everyArm_true as]
      rfl

end

theorem numbered_laid (hEvery : everyNode p source.body = true) : ∃ next,
      Layout.Laid p none false [] source.listing 0 (numbered source) next :=
  ⟨_, Layout.body_lays hEvery 0 (by simp)⟩

/- An evaluation of a new unit is one that is laid out, with its links. -/
theorem ofHead_eval_iff (hEval : (ofHead parent source).evals[id]? = some e) :
    ∃ e₀, (id, e₀) ∈ flattenAll (numbered source) ∧
      e = { e₀ with place := e.place, lexicalNext := e.lexicalNext } := by
  rcases numbered_laid (everyNode_true source.body) with ⟨_, hLaid⟩
  have hSame := getElem?_link_map
    (f := fun e => { e with place := 0, lexicalNext := none }) (fun _ _ _ => rfl) 0 1
    ((flattenAll (numbered source)).map Prod.snd) id
  have hLinked : (link 0 1
        ((flattenAll (numbered source)).map Prod.snd))[id]? = some e := hEval
  rw [hLinked, List.getElem?_map, Option.map_map, Option.map_some,
    eq_comm, Option.map_eq_some_iff] at hSame
  rcases hSame with ⟨⟨k, e₀⟩, hAt, hKept⟩
  have hNumber := hLaid.fst_eq hAt
  rw [Nat.zero_add] at hNumber
  cases hNumber
  exact ⟨e₀, List.mem_of_getElem? hAt, congrArg (fun f : Evaluation =>
    { f with place := e.place, lexicalNext := e.lexicalNext }) hKept.symm⟩

/- What is laid out is in the new unit. -/
theorem ofHead_eval_of_mem (parent : UnitParent)
    (hMember : (id, e₀) ∈ flattenAll (numbered source)) :
    ∃ e, (ofHead parent source).evals[id]? = some e ∧ e.fixed = e₀.fixed := by
  rcases numbered_laid (everyNode_true source.body) with ⟨_, hLaid⟩
  rcases List.mem_iff_getElem?.mp hMember with ⟨k, hAt⟩
  have hNumber := hLaid.fst_eq hAt
  rw [Nat.zero_add] at hNumber
  cases hNumber
  have hSame := getElem?_link_map (f := fixed) (fun _ _ _ => rfl) 0 1
      ((flattenAll (numbered source)).map Prod.snd) id
  rw [List.getElem?_map, hAt, Option.map_map, Option.map_some, Option.map_eq_some_iff] at hSame
  exact hSame

/-
  An evaluation of a new unit is formed, and a construct
  statement is directly in a construct.
-/
theorem ofHead_formed (hEvery : everyNode p source.body = true)
    (hEval : (ofHead parent source).evals[id]? = some e) : ∃ e₀ outer inside nested,
      e = { e₀ with place := e.place, lexicalNext := e.lexicalNext } ∧
      Formed p outer inside (.node (id, e₀) nested) ∧
      (∀ r ∈ flattenAll nested, r ∈ flattenAll (numbered source)) ∧ (inside = true →
        ∃ c ∈ flattenAll (numbered source), outer = some c.1 ∧ c.2.isConstruct = true) := by
  rcases ofHead_eval_iff hEval with ⟨e₀, hMember, hSame⟩
  rcases numbered_laid hEvery with ⟨_, hLaid⟩
  rcases mem_flattenAll.mp hMember with ⟨t, hIn, hAt⟩
  rcases (hLaid.formed t hIn).part hAt with ⟨outer, inside, nested, hPart, hAll, hDirect⟩
  have hWithin : ∀ r ∈ flatten t, r ∈ flattenAll (numbered source) :=
    fun r hR => mem_flattenAll.mpr ⟨t, hIn, hR⟩
  refine ⟨e₀, outer, inside, nested, hSame, hPart, fun r hR => hWithin r (hAll r hR), ?_⟩
  rintro rfl
  rcases hDirect with ⟨-, hNone⟩ | ⟨c, hC, hOuter, hConstruct⟩
  · cases hNone
  · exact ⟨c, hWithin c hC, hOuter, hConstruct.symm⟩

section

variable (hEval : (ofHead parent source).evals[id]? = some e)
include hEval

/- The analysis has not found out anything about a new unit. -/
theorem ofHead_laid : e.laid = e := by
  rcases ofHead_formed (everyNode_true source.body) hEval with ⟨e₀, _, _, _, hSame, hPart, -⟩
  rcases hPart with ⟨-, -, hBare, -, -, -, -, -⟩
  rw [hSame, ← hBare]
  rfl

/- In a new unit, what is around an evaluation comes before it. -/
theorem ofHead_outer_lt (hOuter : e.outer = some o) : o < id := by
  rcases ofHead_formed (everyNode_true source.body) hEval with ⟨e₀, _, _, _, hSame, hPart, -⟩
  rcases hPart with ⟨hDirect, hBelow, -, -, -, -, -, -⟩
  rw [hSame] at hOuter
  exact hBelow o (hDirect.symm.trans hOuter)

/- Nothing is in a statement. -/
theorem ofHead_leaf (hStatement : e.isStatement = true) : e.children = [] := by
  rcases ofHead_formed (everyNode_true source.body) hEval with ⟨e₀, _, _, _, hSame, hPart, -⟩
  rcases hPart with ⟨-, -, -, hChildren, -, hLeaf, -, -⟩
  rw [hSame] at hStatement ⊢
  exact hChildren.trans (by rw [hLeaf hStatement, List.map_nil])

end

/-
  The evaluations of an outline are directly in the one that is
  given or, further down, in the one above them, and list the
  roots of what is nested in them.
-/
inductive Nests (u : FunctionUnit) : Option EvalId → Outline EvalId → Prop where
  | node {outer : Option EvalId} {id : EvalId} {e : Evaluation} {nested : List (Outline EvalId)}
      (hEval : u.evals[id]? = some e) (hOuter : e.outer = outer)
      (hChildren : e.children = nested.map Outline.root)
      (hNested : ∀ t ∈ nested, Nests u (some id) t) : Nests u outer (.node id nested)

/- What is laid out around evaluations holds of their unit. -/
theorem Nests.of_formed {u : FunctionUnit}
    (hFormed : Formed p outer inConstruct t)
    (hEvals : ∀ q ∈ flatten t, ∃ e, u.evals[q.1]? = some e ∧ e.fixed = q.2.fixed) :
    u.Nests outer (map Prod.fst t) := by
  induction hFormed with
  | node hOuter hBelow hBare hChildren hGuard hLeaf hConstruct hNested ih =>
    rename_i id e nested
    rcases hEvals (id, e) (.head _) with ⟨found, hFound, hFixed⟩
    simp only [fixed, Prod.mk.injEq] at hFixed
    rw [map, mapAll_eq_map]
    refine .node hFound (hFixed.2.1.trans hOuter) ?_ ?_
    · rw [hFixed.2.2, hChildren, List.map_map]
      refine List.map_congr_left fun t _ => ?_
      rcases t with ⟨q, inner⟩
      rfl
    · intro t hMember
      rcases List.mem_map.mp hMember with ⟨s, hIn, rfl⟩
      exact ih s hIn fun q hQ =>
        hEvals q (.tail _ (mem_flattenAll.mpr ⟨s, hIn, hQ⟩))

theorem ofHead_nests (parent : UnitParent) (source : SubprogramHead) :
    ∀ t ∈ (ofHead parent source).outline, (ofHead parent source).Nests none t := by
  have hOutline : (ofHead parent source).outline = (numbered source).map (map Prod.fst) :=
    mapAll_eq_map Prod.fst _
  rcases numbered_laid (everyNode_true source.body) with ⟨_, hLaid⟩
  rw [hOutline]
  intro t hMember
  rcases List.mem_map.mp hMember with ⟨s, hIn, rfl⟩
  exact .of_formed (hLaid.formed s hIn)
    fun q hQ => ofHead_eval_of_mem parent (mem_flattenAll.mpr ⟨s, hIn, hQ⟩)

/- The evaluations of a new unit are numbered in their order. -/
theorem ofHead_flattenAll (parent : UnitParent) (source : SubprogramHead) :
    flattenAll (ofHead parent source).outline =
      List.range' 0 (ofHead parent source).evals.length := by
  have hOutline : (ofHead parent source).outline = mapAll Prod.fst (numbered source) := rfl
  have hEvals : (ofHead parent source).evals =
      link 0 1 ((flattenAll (numbered source)).map Prod.snd) := rfl
  rcases numbered_laid (everyNode_true source.body) with ⟨_, hLaid⟩
  rw [hOutline, flattenAll_mapAll, hLaid.numbers, hEvals, length_link, List.length_map]

end FunctionUnit

end FortranIR
