import FortranIR.Proofs.Owners
import FortranIR.Verify

/-
  This file states when the checks of a module end without a
  complaint or a fault.

  A sequence of checks passes if and only if each of them does,
  so a check that passed is a conjunction of what it asked for.

  Main declarations:
    * `Answers`
    * `Module.verifyPlacement_answers`
-/

namespace FortranIR

variable {op : Operation}

/-
  What may end in a complaint or a fault has an answer. Both
  checks and divisions into parts are of this form.
-/
def Answers {ε α : Type} (x : ExceptT ε (Except Fault) α) (a : α) : Prop := x.run = .ok (.ok a)

instance (check : Check Unit) : Decidable (Answers check ()) :=
  inferInstanceAs (Decidable (check.run = .ok (.ok ())))

namespace Module

variable {m : Module} {ε α β : Type} {x : ExceptT ε (Except Fault) α}
variable {f : α → ExceptT ε (Except Fault) β}

----
-- Sequences of checks
----

theorem answers_pure : Answers (ε := ε) (pure a) b ↔ a = b := by
  constructor
  · intro hAnswers
    cases hAnswers
    rfl
  · rintro rfl
    rfl

theorem answers_bind : Answers (x >>= f) b ↔ ∃ a, Answers x a ∧ Answers (f a) b := by
  rcases x with fault | (complaint | a)
  · constructor
    · intro hAnswers
      cases hAnswers
    · rintro ⟨a, hFirst, -⟩
      cases hFirst
  · constructor
    · intro hAnswers
      cases hAnswers
    · rintro ⟨a, hFirst, -⟩
      cases hFirst
  · constructor
    · exact fun hRest => ⟨a, rfl, hRest⟩
    · rintro ⟨a', hFirst, hRest⟩
      cases hFirst
      exact hRest

theorem answers_of_eq (hSame : y = x) (hAnswers : Answers x a) : Answers y a := hSame ▸ hAnswers

/- Checks with the same beginning differ by how they go on. -/
theorem answers_bind_imp (hNext : ∀ a, Answers x a → Answers (f a) b → Answers (g a) b)
    (hAnswers : Answers (x >>= f) b) : Answers (x >>= g) b := by
  rcases answers_bind.mp hAnswers with ⟨a, hFirst, hRest⟩
  exact answers_bind.mpr ⟨a, hFirst, hNext a hFirst hRest⟩

theorem answers_lift {x : Except Fault α} : Answers (ε := ε) (liftM x) a ↔ x = .ok a := by
  cases x with
  | error fault =>
    constructor
    · intro hAnswers
      cases hAnswers
    · intro hFound
      cases hFound
  | ok b =>
    constructor
    · intro hAnswers
      cases hAnswers
      rfl
    · intro hFound
      cases hFound
      rfl

theorem not_answers_reject : ¬ Answers (m.reject o message) a := by
  unfold reject
  rw [answers_bind]
  rintro ⟨op, -, hThrow⟩
  cases hThrow

theorem answers_ensure {cond : Bool} :
    Answers (m.ensure o cond message) u ↔ cond = true := by
  unfold ensure
  cases cond with
  | true => simp [answers_pure]
  | false => simp [not_answers_reject]

theorem answers_forM {xs : List α} {f : α → Check Unit} {u : Unit} : Answers (xs.forM f) u ↔
      ∀ x ∈ xs, Answers (f x) () := by
  induction xs with
  | nil => simp [answers_pure]
  | cons x xs ih =>
    unfold List.forM
    rw [answers_bind, List.forall_mem_cons, ← ih]
    exact ⟨fun ⟨_, hFirst, hRest⟩ => ⟨hFirst, hRest⟩, fun hBoth => ⟨(), hBoth⟩⟩

----
-- Lookups
----

theorem answers_checkedOp {op : Operation} : Answers (m.checkedOp o) op ↔ m.op o = .ok op :=
  answers_lift

theorem answers_checkedType :
    Answers (m.checkedType v) t ↔ m.typeOf v = .ok t := answers_lift

theorem answers_checkedTypes :
    Answers (m.checkedTypes vs) ts ↔ m.typesOf vs = .ok ts := answers_lift

theorem answers_typeAttr : Answers (m.typeAttr o name) t ↔
      ∃ op, m.op o = .ok op ∧ (op.attr? name).bind Attr.type? = some t := by
  unfold typeAttr
  simp only [answers_bind, answers_checkedOp]
  constructor
  · rintro ⟨op, hOp, hRest⟩
    refine ⟨op, hOp, ?_⟩
    split at hRest
    · rename_i t' hFound
      rw [answers_pure] at hRest
      rw [hFound, hRest]
    · exact absurd hRest not_answers_reject
  · rintro ⟨op, hOp, hFound⟩
    refine ⟨op, hOp, ?_⟩
    rw [hFound]
    exact answers_pure.mpr rfl

/- The types of values, one by one. -/
theorem typesOf_eq_ok_iff : m.typesOf vs = .ok ts ↔
      List.Forall₂ (fun v t => m.typeOf v = .ok t) vs ts := mapM_eq_ok_iff

----
-- Modules and operations
----

theorem verify_answers : Answers (verify records m) () ↔
      Answers (m.verifySymbols [] m.top) () ∧ ∃ walked, m.walk = .ok walked ∧
          ∀ o ∈ walked, Answers (verifyOp records m o) () := by
  unfold verify
  simp only [answers_bind, answers_lift, answers_forM]
  exact ⟨fun ⟨_, hSymbols, hRest⟩ => ⟨hSymbols, hRest⟩, fun hBoth => ⟨(), hBoth⟩⟩

theorem verifyOp_answers : Answers (verifyOp records m o) () ↔
      ∃ op, m.op o = .ok op ∧ Answers (m.verifyOperands o op.operands) () ∧
        Answers (m.verifyPlacement o) () ∧ Answers (verifyKind records m o op.kind) () := by
  unfold verifyOp
  simp only [answers_bind, answers_checkedOp]
  constructor
  · rintro ⟨op, hOp, _, hOperands, _, hPlace, hKind⟩
    exact ⟨op, hOp, hOperands, hPlace, hKind⟩
  · rintro ⟨op, hOp, hOperands, hPlace, hKind⟩
    exact ⟨op, hOp, (), hOperands, (), hPlace, hKind⟩

theorem verifyCounts_answers {op : Operation}
    (hOp : m.op o = .ok op) : Answers (m.verifyCounts o operands results) () ↔
      op.operands.length = operands ∧ op.results.length = results := by
  unfold verifyCounts
  simp only [answers_bind, answers_checkedOp, answers_ensure, hOp, Except.ok.injEq,
    exists_eq_left', beq_iff_eq, exists_const]

----
-- Placement
----

/- A block ends with its last operation, if that is a terminator. -/
theorem terminator?_eq_some : m.terminator? b = .ok (some last) ↔
      ∃ os op, m.blockOps b = .ok os ∧ os.getLast? = some last ∧ m.op last = .ok op ∧
        op.kind.isTerminator = true := by
  unfold terminator?
  rw [bind_eq_ok_iff]
  constructor
  · rintro ⟨os, hOps, hRest⟩
    cases hLast : os.getLast? with
    | none =>
      simp only [hLast] at hRest
      cases hRest
    | some o =>
      simp only [hLast] at hRest
      rcases bind_eq_ok_iff.mp hRest with ⟨op, hOp, hDone⟩
      by_cases hKind : op.kind.isTerminator = true
      · rw [if_pos hKind] at hDone
        cases hDone
        exact ⟨os, op, hOps, hLast, hOp, hKind⟩
      · rw [if_neg hKind] at hDone
        cases hDone
  · rintro ⟨os, op, hOps, hLast, hOp, hKind⟩
    refine ⟨os, hOps, ?_⟩
    simp only [hLast]
    exact bind_eq_ok_iff.mpr ⟨op, hOp, by rw [if_pos hKind]; rfl⟩

/- Symbols are at the module level, terminators are last. -/
theorem verifyPlacement_answers (hOp : m.op o = .ok op)
    (hAnswers : Answers (m.verifyPlacement o) ()) :
    (m.parentBlock? o = none → op.kind.isSymbol = true) ∧ ∀ b, m.parentBlock? o = some b →
        op.kind.isSymbol = false ∧
        (op.kind.isTerminator = true → m.terminator? b = .ok (some o)) := by
  unfold verifyPlacement at hAnswers
  simp only [answers_bind, answers_checkedOp] at hAnswers
  rcases hAnswers with ⟨found, hFound, hRest⟩
  cases hOp.symm.trans hFound
  cases hPlace : m.parentBlock? o with
  | none =>
    simp only [hPlace, answers_ensure] at hRest
    refine ⟨fun _ => hRest, ?_⟩
    rintro b ⟨⟩
  | some b =>
    simp only [hPlace, answers_bind, answers_ensure] at hRest
    rcases hRest with ⟨-, hSymbol, hLast⟩
    refine ⟨by simp, ?_⟩
    rintro c ⟨⟩
    refine ⟨by simpa using hSymbol, fun hKind => ?_⟩
    simp only [hKind, if_true, answers_bind, answers_lift, answers_ensure] at hLast
    rcases hLast with ⟨last, hFound, hSame⟩
    rw [hFound, eq_of_beq hSame]

theorem verifyTerminatedBlocks_answers :
    Answers (m.verifyTerminatedBlocks o bs) () ↔
      ∀ b ∈ bs, ∃ last, m.terminator? b = .ok (some last) := by
  induction bs with
  | nil => simp [verifyTerminatedBlocks, answers_pure]
  | cons b bs ih =>
    unfold verifyTerminatedBlocks
    simp only [answers_bind, answers_lift, answers_ensure, ih, List.forall_mem_cons]
    constructor
    · rintro ⟨last, hLast, -, hSome, hRest⟩
      rcases Option.isSome_iff_exists.mp hSome with ⟨t, rfl⟩
      exact ⟨⟨t, hLast⟩, hRest⟩
    · rintro ⟨⟨t, hLast⟩, hRest⟩
      exact ⟨some t, hLast, (), rfl, hRest⟩

theorem verifyTerminated_answers (hOp : m.op o = .ok op) : Answers (m.verifyTerminated o) () ↔
      ∀ r ∈ op.regions, ∃ bs, m.regionBlocks r = .ok bs ∧
        ∀ b ∈ bs, ∃ last, m.terminator? b = .ok (some last) := by
  unfold verifyTerminated
  simp only [answers_bind, answers_checkedOp, hOp,
    Except.ok.injEq, exists_eq_left', answers_forM, answers_lift, verifyTerminatedBlocks_answers]

end Module

end FortranIR
