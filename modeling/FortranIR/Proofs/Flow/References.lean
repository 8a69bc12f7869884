import FortranIR.Proofs.Flow.Frames
import FortranIR.Proofs.Flow.Placement
import FortranIR.Proofs.Storage.Intervals

/-
  This file states when the statements of a subprogram refer to
  constructs and labels that are there, and proves that the
  analysis finds them.

  A statement that refers to a construct stands in a construct
  of that name or, without a name, in a loop. Along the source,
  this comes down to the names and the number of loops that are
  open in front of a statement.

  Main declarations:
    * `Opened`
    * `FunctionUnit.hasLabel_of_mem`
-/

namespace FortranIR

variable {name : Option String}

open Outline ConstructKind

----
-- Open constructs
----

/- The names of constructs, and the number of open loops. -/
structure Opened where
  names : List String := []
  loops : Nat := 0

/- The number of open loops behind a construct statement. -/
def GuardKind.loopsBehind (loops : Nat) : GuardKind → Nat
  | .do _ => loops + 1
  | .endDo => loops - 1
  | _ => loops

namespace Opened

/- What is open behind a construct statement. -/
def afterGuard (s : Opened) (g : Guard) : Opened where
  names := if g.kind.begins then g.construct.toList ++ s.names else s.names
  loops := g.kind.loopsBehind s.loops

/- What is open behind an evaluation. -/
def after (s : Opened) (e : Evaluation) : Opened := match e.node with
  | .guard g => s.afterGuard g
  | _ => s

/- A construct of a name or, without a name, a loop is open. -/
def has (s : Opened) : Option String → Bool
  | some n => s.names.contains n
  | none => 0 < s.loops

end Opened

/- An action, or the action of an `if`, refers to what is open. -/
def Action.refersIn (s : Opened) : Action → Bool
  | .if ⟨_, _, a⟩ => a.refersIn s
  | a => a.reference?.all s.has

namespace Node

mutual

/- The actions of a node refer to what is open around them. -/
def refersIn (s : Opened) : Node → Bool
  | .action st => st.stmt.refersIn s
  | .nonExecutable _ => true
  | .construct _ as _ => armsReferIn (as.head?.elim s fun a => s.afterGuard a.guard.stmt) as
  | .directive _ body => nodesReferIn s body

def nodesReferIn (s : Opened) : List Node → Bool
  | [] => true
  | n :: rest => n.refersIn s && nodesReferIn s rest

def armsReferIn (s : Opened) : List (Arm Node) → Bool
  | [] => true
  | a :: rest => armRefersIn s a && armsReferIn s rest

def armRefersIn (s : Opened) : Arm Node → Bool
  | ⟨_, body⟩ => nodesReferIn s body

end

end Node

/- The blocks of a loop can be counted in 64 bits. -/
def GuardKind.fits : GuardKind → Bool
  | .do control => LoopControl.fits control
  | _ => true

/-
  The statements of the arms and the end fit the construct, no
  arm follows an `else`, and the blocks of a loop can be counted.
-/
def ConstructKind.completes (kind : ConstructKind) (gs : List GuardKind)
    (last : GuardKind) : Bool :=
  kind.admits gs last && !gs.dropLast.contains .else && gs.all GuardKind.fits

----
-- References along the source
----

namespace Opened

/- What evaluations refer to is open in front of them. -/
def Resolves : Opened → List Evaluation → Prop
  | _, [] => True
  | s, e :: es =>
    (∀ a, e.node = .action a → a.reference?.all s.has = true) ∧ (s.after e).Resolves es

/- All that is open in one state is open in the other. -/
structure Sub (s t : Opened) : Prop where
  names : ∀ n ∈ s.names, n ∈ t.names
  loops : t.loops = s.loops

variable {s : Opened} {es : List Evaluation}

theorem Resolves.append (hFirst : s.Resolves es) (hRest : (es.foldl after s).Resolves fs) :
    s.Resolves (es ++ fs) := by
  induction es generalizing s with
  | nil => exact hRest
  | cons e es ih => exact ⟨hFirst.1, ih hFirst.2 hRest⟩

/- What is written tells what evaluations refer to. -/
theorem Resolves.of_written (hResolves : s.Resolves (es.map Evaluation.written)) :
    s.Resolves es := by
  induction es generalizing s with
  | nil => trivial
  | cons e es ih => exact ⟨hResolves.1, ih hResolves.2⟩

theorem Resolves.getElem? (hResolves : s.Resolves es) {k : Nat} {e : Evaluation}
    (hAt : es[k]? = some e) {a : Action} (hAction : e.node = .action a) :
    a.reference?.all ((es.take k).foldl after s).has = true := by
  induction es generalizing s k with
  | nil => cases hAt
  | cons f es ih =>
    cases k with
    | zero =>
      rw [List.getElem?_cons_zero, Option.some.injEq] at hAt
      subst hAt
      exact hResolves.1 a hAction
    | succ k =>
      exact ih hResolves.2 hAt

theorem Sub.has (hSub : s.Sub t) (hHas : s.has name = true) :
    t.has name = true := by
  cases name with
  | none => rwa [Opened.has, hSub.loops]
  | some n =>
    rw [Opened.has, List.contains_iff_mem] at hHas ⊢
    exact hSub.names n hHas

theorem Sub.reference? (hSub : s.Sub t) {a : Action} (hAll : a.reference?.all s.has = true) :
    a.reference?.all t.has = true := by
  cases hRef : a.reference? with
  | none => rfl
  | some name =>
    rw [hRef] at hAll
    exact hSub.has hAll

theorem Sub.afterGuard (hSub : s.Sub t) (g : Guard) : (s.afterGuard g).Sub (t.afterGuard g) := by
  refine ⟨fun n hIn => ?_, by rw [Opened.afterGuard, Opened.afterGuard, hSub.loops]⟩
  unfold Opened.afterGuard at hIn ⊢
  split
  · rename_i hBegins
    rw [if_pos hBegins] at hIn
    rcases List.mem_append.mp hIn with hNew | hOld
    · exact List.mem_append.mpr (.inl hNew)
    · exact List.mem_append.mpr (.inr (hSub.names n hOld))
  · rename_i hOther
    rw [if_neg hOther] at hIn
    exact hSub.names n hIn

/- A construct statement keeps the names. -/
theorem mem_names_afterGuard (g : Guard) (hIn : n ∈ s.names) :
    n ∈ (s.afterGuard g).names := by
  unfold afterGuard
  split
  · exact List.mem_append.mpr (.inr hIn)
  · exact hIn

/-
  References are resolved along evaluations, behind which all is
  open that has to be.
-/
structure Passes (s : Opened) (es : List Evaluation) (t : Opened) : Prop where
  resolves : s.Resolves es
  behind : t.Sub (es.foldl after s)

theorem Passes.append (hFirst : s.Passes es t)
    (hRest : (es.foldl after s).Passes fs w) : s.Passes (es ++ fs) w :=
  ⟨hFirst.resolves.append hRest.resolves, by rw [List.foldl_append]; exact hRest.behind⟩

end Opened

namespace ConstructKind

variable {kind : ConstructKind}

/- The end of a loop closes it, and no other statement does. -/
theorem loopsBehind_of_endedBy (hBegun : kind.begunBy g = true) (hEnded : kind.endedBy h = true)
    (loops : Nat) : h.loopsBehind (g.loopsBehind loops) = loops := by
  cases kind <;> cases g <;> simp [begunBy] at hBegun <;> cases h <;>
    simp [endedBy] at hEnded <;> rfl

theorem loopsBehind_of_continuedBy (hContinued : kind.continuedBy g = true) (loops : Nat) :
    g.loopsBehind loops = loops := by
  cases kind <;> cases g <;> simp [continuedBy] at hContinued <;> rfl

end ConstructKind

theorem Action.listing_passes : ∀ (a : Action) {ctx s : Opened}, a.refersIn ctx = true → ctx.Sub s →
      (a.reference?.all s.has = true) ∧ s.Passes a.listing ctx
  | .if ⟨_, source, a⟩, ctx, s => by
      intro hRefers hSub
      rcases listing_passes a hRefers hSub with ⟨hHere, hRest⟩
      refine ⟨rfl, ?_⟩
      refine ⟨⟨?_, hRest.resolves⟩, hRest.behind⟩
      rintro b ⟨⟩
      exact hHere
  | .cycle _, ctx, s | .exit _, ctx, s => fun hRefers hSub =>
      ⟨hSub.reference? hRefers, trivial, hSub⟩
  | .assignment, ctx, s | .continue, ctx, s | .call _, ctx, s |
    .goto _, ctx, s | .computedGoto _, ctx, s | .arithmeticIf _ _, ctx, s | .assign _ _, ctx, s |
    .assignedGoto _, ctx, s | .return, ctx, s | .stop, ctx, s |
    .io _ _ _, ctx, s | .other _, ctx, s => fun _ hSub => ⟨rfl, trivial, hSub⟩

namespace Node

open Opened

mutual

theorem listing_passes : ∀ (n : Node) {ctx s : Opened}, n.every completes = true →
      n.refersIn ctx = true → ctx.Sub s → s.Passes n.listing ctx
  | .action st, ctx, s => by
      intro _ hRefers hSub
      rcases st.stmt.listing_passes hRefers hSub with ⟨hHere, hRest⟩
      refine ⟨⟨?_, hRest.resolves⟩, hRest.behind⟩
      rintro b ⟨⟩
      exact hHere
  | .nonExecutable st, ctx, s => by
      intro _ _ hSub
      exact ⟨⟨by rintro b ⟨⟩, trivial⟩, hSub⟩
  | .directive name body, ctx, s => by
      intro hEvery hRefers hSub
      have hBody := nodesListing_passes body hEvery hRefers hSub
      exact ⟨⟨by rintro b ⟨⟩, hBody.resolves⟩, hBody.behind⟩
  | .construct kind [] finish, ctx, s => by
      intro hEvery
      simp [every, completes, admits] at hEvery
  | .construct kind (first :: as) finish, ctx, s => by
      intro hEvery hRefers hSub
      rw [every, everyArm, Bool.and_eq_true, Bool.and_eq_true] at hEvery
      rcases hEvery with ⟨hCompletes, hFirst, hOthers⟩
      rw [completes, Bool.and_eq_true, Bool.and_eq_true,
        List.map_cons, admits, Bool.and_eq_true,
        Bool.and_eq_true, List.all_eq_true] at hCompletes
      rcases hCompletes with ⟨⟨⟨⟨hBegun, hContinued⟩, hEnded⟩, -⟩, -⟩
      rw [refersIn, armsReferIn, Bool.and_eq_true] at hRefers
      have hArm := armListing_passes first hFirst hRefers.1 (hSub.afterGuard first.guard.stmt)
      have hArms := armsListing_passes as hOthers
        (fun a hIn => loopsBehind_of_continuedBy
          (hContinued _ (List.mem_map_of_mem hIn))) hRefers.2 hArm.behind
      have hBoth := hArm.append hArms
      have hFinish : (((armListing first ++ armsListing as).foldl after
            s)).Passes [finish.written .guard] ctx := by
        refine ⟨⟨by rintro b ⟨⟩, trivial⟩, ⟨fun n hIn => ?_, ?_⟩⟩
        · exact mem_names_afterGuard _ (hBoth.behind.names n (mem_names_afterGuard _ hIn))
        · have hLoops := hBoth.behind.loops
          change finish.stmt.kind.loopsBehind _ = ctx.loops
          rw [hLoops]
          exact loopsBehind_of_endedBy hBegun hEnded _
      have hAll := hBoth.append hFinish
      exact ⟨⟨by rintro b ⟨⟩, hAll.resolves⟩, hAll.behind⟩

theorem nodesListing_passes : ∀ (ns : List Node) {ctx s : Opened},
      everyNode completes ns = true → nodesReferIn ctx ns = true → ctx.Sub s →
      s.Passes (nodesListing ns) ctx
  | [], ctx, s => by
      intro _ _ hSub
      exact ⟨trivial, hSub⟩
  | n :: rest, ctx, s => by
      intro hEvery hRefers hSub
      rw [everyNode, Bool.and_eq_true] at hEvery
      rw [nodesReferIn, Bool.and_eq_true] at hRefers
      have hFirst := listing_passes n hEvery.1 hRefers.1 hSub
      exact hFirst.append (nodesListing_passes rest hEvery.2 hRefers.2 hFirst.behind)

/- An arm, whose guard opens what its body refers to. -/
theorem armListing_passes : ∀ (a : Arm Node) {ctx s : Opened},
      inArm completes a = true → armRefersIn ctx a = true →
      ctx.Sub (s.afterGuard a.guard.stmt) → s.Passes (armListing a) ctx
  | ⟨guard, body⟩, ctx, s => by
      intro hEvery hRefers hSub
      have hBody := nodesListing_passes body hEvery hRefers hSub
      exact ⟨⟨by rintro b ⟨⟩, hBody.resolves⟩, hBody.behind⟩

/- The arms that continue a construct. -/
theorem armsListing_passes : ∀ (as : List (Arm Node)) {ctx s : Opened},
      everyArm completes as = true →
      (∀ a ∈ as, ∀ loops, a.guard.stmt.kind.loopsBehind loops = loops) →
      armsReferIn ctx as = true → ctx.Sub s → s.Passes (armsListing as) ctx
  | [], ctx, s => by
      intro _ _ _ hSub
      exact ⟨trivial, hSub⟩
  | a :: rest, ctx, s => by
      intro hEvery hGuards hRefers hSub
      rw [everyArm, Bool.and_eq_true] at hEvery
      rw [armsReferIn, Bool.and_eq_true] at hRefers
      have hStill : ctx.Sub (s.afterGuard a.guard.stmt) := by
        refine ⟨fun n hIn => mem_names_afterGuard _ (hSub.names n hIn), ?_⟩
        rw [← hSub.loops]
        exact hGuards a (.head _) s.loops
      have hFirst := armListing_passes a hEvery.1 hRefers.1 hStill
      exact hFirst.append (armsListing_passes rest hEvery.2
        (fun b hIn => hGuards b (.tail a hIn)) hRefers.2 hFirst.behind)

end

end Node

/- What a subprogram refers to is open, along its source. -/
theorem SubprogramHead.listing_resolves {s : SubprogramHead}
    (hEvery : Node.everyNode completes s.body = true)
    (hRefers : Node.nodesReferIn {} s.body = true) : ({} : Opened).Resolves s.listing := by
  have hBody := Node.nodesListing_passes s.body hEvery hRefers ⟨fun _ hIn => hIn, rfl⟩
  refine hBody.resolves.append ?_
  split
  · trivial
  · refine ⟨?_, trivial⟩
    rintro a ⟨⟩
    rfl

----
-- References of a unit
----

namespace FunctionUnit

variable {u : FunctionUnit}

/- The construct of a number has begun in front of a place. -/
def begunBefore (u : FunctionUnit) (place c : Nat) : Prop := c < place ∧ (u.kindAt? c).isSome = true

/- A construct statement opens the same in both states. -/
theorem afterGuard_opened (g : Guard) {scopes : Scopes} {s : Opened} (construct : EvalId)
    (hNames : scopes.names.map Prod.fst = s.names) (hLoops : scopes.loops.length = s.loops) :
    (scopes.afterGuard g construct).names.map Prod.fst = (s.afterGuard g).names ∧
      (scopes.afterGuard g construct).loops.length = (s.afterGuard g).loops := by
  rcases g with ⟨kind, name⟩
  refine ⟨?_, ?_⟩
  · rw [Scopes.afterGuard, Opened.afterGuard]
    split
    · cases name <;> simp [hNames]
    · exact hNames
  · cases kind <;> simp [Scopes.afterGuard, Opened.afterGuard, GuardKind.loopsBehind, hLoops]

/- What is open behind evaluations changes at construct statements. -/
theorem opened_succ (u : FunctionUnit) (k : Nat) :
    (u.evals.take (k + 1)).foldl Opened.after {} = (u.guardAt? k).elim
      ((u.evals.take k).foldl Opened.after {}) ((u.evals.take k).foldl Opened.after {}).afterGuard := by
  rw [List.take_add_one, List.foldl_append, guardAt?]
  cases u.evals[k]? with
  | none => rfl
  | some e =>
    rw [Option.toList_some, Option.bind_some, Evaluation.guard?, List.foldl_cons, Opened.after]
    cases e.node <;> rfl

/- The scopes in front of an evaluation hold what is open there. -/
theorem Placed.scopesBefore_opened (hPlaced : u.Placed) (id : Nat) :
    (u.scopesBefore id).names.map Prod.fst = ((u.evals.take id).foldl Opened.after {}).names ∧
      (u.scopesBefore id).loops.length = ((u.evals.take id).foldl Opened.after {}).loops := by
  induction id with
  | zero => exact ⟨rfl, rfl⟩
  | succ id ih =>
    rw [opened_succ]
    cases hGuard : u.guardAt? id with
    | none =>
      rw [scopesBefore_succ_of_none hGuard]
      exact ih
    | some g =>
      rcases hPlaced.guard_cases hGuard with ⟨c, _, _, _, hOuter, -⟩
      rw [scopesBefore_succ_of_guard hGuard hOuter]
      exact afterGuard_opened g c ih.1 ih.2

/- What a statement refers to is found in front of it. -/
theorem Placed.refers (hPlaced : u.Placed) {id : Nat}
    (hHas : ((u.evals.take id).foldl Opened.after {}).has name = true) :
    u.Refers (u.begunBefore id) (u.scopesBefore id) name := by
  rcases hPlaced.scopesBefore_opened id with ⟨hNames, hLoops⟩
  have hFound : ∃ c, (u.scopesBefore id).find? name = some c ∧ u.begunBefore id c := by
    cases name with
    | none =>
      rw [Opened.has, decide_eq_true_eq, ← hLoops] at hHas
      rcases List.exists_cons_of_length_pos hHas with ⟨c, rest, hCons⟩
      refine ⟨c, by rw [Scopes.find?, hCons, List.head?_cons], ?_⟩
      rcases ((hPlaced.loops id).2 c).mp (hCons ▸ List.mem_cons_self) with ⟨hKind, hContains, -⟩
      exact ⟨hContains.lt hPlaced.formed.ordered, by rw [hKind]; rfl⟩
    | some n =>
      rw [Opened.has, List.contains_iff_mem, ← hNames] at hHas
      rw [Scopes.find?]
      cases hLookup : (u.scopesBefore id).names.lookup n with
      | none =>
        rw [List.lookup_eq_none_iff] at hLookup
        rcases List.mem_map.mp hHas with ⟨p, hIn, rfl⟩
        have hNot := hLookup p hIn
        simp at hNot
      | some c =>
        rcases hPlaced.nameAt?_of_mem (mem_of_lookup hLookup) with ⟨i, hBefore, hName, hOuter⟩
        rcases Option.bind_eq_some_iff.mp hName with ⟨g, hGuard, -⟩
        rcases hPlaced.guard_cases hGuard with ⟨d, _, _, _, hSame, hKind, -⟩
        cases hOuter.symm.trans hSame
        exact ⟨c, rfl, Nat.lt_trans (hPlaced.formed.ordered i c hOuter) hBefore, by rw [hKind]; rfl⟩
  rcases hFound with ⟨c, hC, hBegun⟩
  rcases Option.isSome_iff_exists.mp hBegun.2 with ⟨kind, hKind⟩
  rcases hPlaced.formed.construct hKind with ⟨-, last, -, ends, -, hLast, -, hEnds, -⟩
  rcases Option.bind_eq_some_iff.mp hEnds with ⟨e, hEval, -⟩
  exact ⟨c, last, e, hC, hBegun, hLast, hEval⟩

----
-- Labels
----

theorem labelsOf_foldl (es : List Evaluation) (first n : Nat) (labels : Keyed EvalId)
    (hBelow : first + es.length ≤ n) (hLabels : ∀ l t, labels.find? l = some t → t < n) :
    let result := (es.zipIdx first).foldl (fun labels (e, id) =>
        match e.label with
        | none => labels
        | some l => labels.insert l id) labels
    (∀ l t, result.find? l = some t → t < n) ∧ ∀ l, ((labels.find? l).isSome = true ∨
        ∃ e ∈ es, e.label = some l) → (result.find? l).isSome = true := by
  induction es generalizing first labels with
  | nil => exact ⟨hLabels, fun l hEither => hEither.resolve_right (by simp)⟩
  | cons e es ih =>
    rw [List.length_cons] at hBelow
    have hRest : first + 1 + es.length ≤ n := by omega
    simp only [List.zipIdx_cons, List.foldl_cons]
    cases hLabel : e.label with
    | none =>
      rcases ih _ _ hRest hLabels with ⟨hSmall, hAll⟩
      refine ⟨hSmall, fun l hEither => hAll l ?_⟩
      rcases hEither with hOld | ⟨f, hIn, hF⟩
      · exact .inl hOld
      · rcases List.mem_cons.mp hIn with rfl | hLater
        · rw [hLabel] at hF
          cases hF
        · exact .inr ⟨f, hLater, hF⟩
    | some k =>
      have hNew : ∀ l t, (labels.insert k first).find? l = some t → t < n := by
        intro l t hFound
        rw [Keyed.find?_insert] at hFound
        split at hFound
        · cases hFound
          omega
        · exact hLabels l t hFound
      rcases ih _ _ hRest hNew with ⟨hSmall, hAll⟩
      refine ⟨hSmall, fun l hEither => hAll l ?_⟩
      rw [Keyed.find?_insert]
      by_cases hSame : l = k
      · exact .inl (by rw [if_pos hSame]; rfl)
      · rw [if_neg hSame]
        rcases hEither with hOld | ⟨f, hIn, hF⟩
        · exact .inl hOld
        · rcases List.mem_cons.mp hIn with rfl | hLater
          · rw [hLabel, Option.some.injEq] at hF
            exact absurd hF.symm hSame
          · exact .inr ⟨f, hLater, hF⟩

/- A label of an evaluation is found. -/
theorem hasLabel_of_mem (hLabels : u.labels = labelsOf u.evals)
    (hIn : e ∈ u.evals) (hLabel : e.label = some label) : u.HasLabel label := by
  rcases labelsOf_foldl u.evals 0 u.evals.length [] (by omega)
    (fun l t hNone => by cases hNone) with ⟨hSmall, hAll⟩
  have hFound := hAll label (.inr ⟨e, hIn, hLabel⟩)
  rcases Option.isSome_iff_exists.mp hFound with ⟨t, hT⟩
  have hBelow := hSmall label t hT
  refine ⟨t, u.evals[t], ?_, List.getElem?_eq_getElem hBelow⟩
  rw [hLabels]
  exact hT

end FunctionUnit

end FortranIR
