import FortranIR.Proofs.Folding.Conditions
import FortranIR.Proofs.Folding.Steps

/-
  This file proves that folding keeps a module verified, if its
  operations see the values that they use and its descriptors
  are read as what they were made from.

  One fold keeps all of this true, so all rounds do. Without the
  condition on descriptors there are modules that fail their
  verification after folding.

  Main declarations:
    * `Module.Sound`
    * `Module.Reached.verify_foldAll`
-/

namespace FortranIR

namespace Module

variable {m m' : Module}

----
-- Reductions
----

/- What folding keeps true of a module. -/
structure Sound (records : RecordTable) (m : Module) : Prop where
  reached : m.Reached
  verified : m.Verified records
  scopes : m.Scoped
  faithful : m.Faithful

/- No constant is new where all kinds are the same. -/
theorem fitsResults_of_kinds (hKinds : ∀ (o : OpId) (op op' : Operation), m.op o = .ok op →
        m'.op o = .ok op' → op'.kind = op.kind) : m.FitsResults m' := by
  intro o op value _ hOp hKind hOp'
  have hSame : OpKind.constant = op.kind := hKinds o op _ hOp hOp'
  rw [← hSame] at hKind
  cases hKind

/- An operation that is no symbol is in a block. -/
theorem Verified.place_of_live (hVerified : m.Verified records) {op : Operation}
    (hLive : m.Live o) (hOp : m.op o = .ok op) (hKind : op.kind.isSymbol = false) :
    ∃ home, m.places[o.index]? = some home := by
  rcases verifyOp_answers.mp (hVerified.ops o hLive) with ⟨found, _, -, hPlacement, -⟩
  cases hPlace : m.places[o.index]? with
  | some home => exact ⟨home, rfl⟩
  | none =>
    have hSymbol := (verifyPlacement_answers hOp hPlacement).1 hPlace
    rw [hKind] at hSymbol
    cases hSymbol

namespace Sound

/- A reduction that replaces values by such as they yield. -/
theorem reduced (hSound : m.Sound records)
    (hReduces : m.Reduces σ gone m') (hComplete : m'.Complete)
    (hFits : m.FitsResults m')
    (hVisible : ∀ (u : OpId) (v : ValueId), m.Visible u v → m.Visible u (σ v))
    (hYields : ∀ v, m.Yields v (σ v)) : m'.Sound records := by
  refine ⟨hReduces.after, hReduces.verified hSound.verified hComplete hFits, ?_, ?_⟩
  · refine hReduces.scoped_after ?_
    intro u op hLive hOp v hOperand
    exact hVisible u v (hSound.scopes u op hLive hOp v hOperand)
  · exact hReduces.faithful_after hSound.verified hYields hSound.faithful

theorem complete_of_reduces (hSound : m.Sound records)
    (hReduces : m.Reduces σ [] m') : m'.Complete := by
  intro p hTop
  rw [hReduces.top] at hTop
  rcases hSound.verified.op_of_live (.top hTop) with ⟨op, hOp⟩
  rcases hReduces.opsLeft p op (op_eq_ok_iff.mp hOp) List.not_mem_nil with ⟨op', hOp'⟩
  exact ⟨op', op_eq_ok_iff.mpr hOp'⟩

----
-- Single folds
----

variable {op : Operation}

section

variable (hSound : m.Sound records)
include hSound

/- An operation becomes the constant that it folds to. -/
theorem replaceWithConstant (hLive : m.Live o) (hOp : m.op o = .ok op) {value : Attr}
    (hFold : m.fold? o = .ok (some (.constant value)))
    (hRun : Module.replaceWithConstant o value m = .ok () m') : m'.Sound records := by
  rcases fits_of_fold hOp hLive hSound.scopes hSound.verified hSound.reached.ownersKept hFold with
    ⟨hKind, hFits⟩
  rcases replaceWithConstant_reduces hSound.reached (op_eq_ok_iff.mp hOp) hKind hRun with
    ⟨hReduces, hHere, hThere⟩
  refine hSound.reduced hReduces (hSound.complete_of_reduces hReduces) ?_
    (fun _ _ hVisible => hVisible) .refl
  intro p found other _ hFound hArithmetic hSettled
  by_cases hSame : p = o
  · subst hSame
    cases hOp.symm.trans hFound
    rw [op_eq_ok_iff, hHere, Option.some.injEq] at hSettled
    have hValue : value = other := by
      have hAttr : (op.settle value).attr? "value" = (op.settle other).attr? "value" := by
        rw [hSettled]
      exact Option.some.inj hAttr
    exact hValue ▸ hFits
  · rw [op_eq_ok_iff, hThere p hSame, ← op_eq_ok_iff, hFound, Except.ok.injEq] at hSettled
    rw [hSettled] at hArithmetic
    cases hArithmetic

/- The value that an operation folds to takes the place of its result. -/
theorem replaceAllUses (hType : m.SameType r v) (hYields : m.Yields r v) (hDefined :
      ∃ info : ValueInfo, m.values[v.index]? = some info ∧ info.defined ≠ .placeholder)
    (hVisible : ∀ u, m.Visible u r → m.Visible u v)
    (hRun : Module.replaceAllUses r v m = .ok () m') :
    m.Reduces (replaced r v) [] m' ∧ m'.Sound records := by
  have hReduces : m.Reduces (replaced r v) [] m' := by
    refine replaceAllUses_reduces hSound.reached hType ?_ hRun
    rcases hDefined with ⟨info, hInfo, hOther⟩
    intro found hFound
    rw [hInfo, Option.some.injEq] at hFound
    exact hFound ▸ hOther
  refine ⟨hReduces, hSound.reduced hReduces (hSound.complete_of_reduces hReduces) ?_ ?_ ?_⟩
  · refine fitsResults_of_kinds fun p found found' hFound hFound' => ?_
    have hKind := (replaceAllUses_ops hRun).2.2 p.index
    rwa [op_eq_ok_iff.mp hFound, op_eq_ok_iff.mp hFound', Option.map_some, Option.map_some,
      Option.some.injEq] at hKind
  · intro u w hSeen
    unfold replaced
    split
    · rename_i hSame
      exact hVisible u (hSame ▸ hSeen)
    · exact hSeen
  · intro w
    unfold replaced
    split
    · rename_i hSame
      exact hSame ▸ hYields
    · exact .refl w

/- An operation in a block that does not end it is removed. -/
theorem removeOp (hOp : m.op o = .ok op)
    (hKind : op.kind.isTerminator = false) (hPlace : m.places[o.index]? = some home)
    (hRun : Module.removeOp o m = .ok removed m') (hComplete : m'.Complete) :
    m'.Sound records := by
  rcases removeOp_cuts hSound.reached.usersKept hSound.reached.ownersKept hRun with ⟨gone, hCuts⟩
  have hReached : m'.Reached := by
    refine hSound.reached.change (.removeOp o) ?_
    exact bind_of_ok hRun rfl
  have hReduces := hCuts.reduces hSound.reached hReached hSound.scopes hPlace
    (op_eq_ok_iff.mp hOp) hKind
  refine hSound.reduced hReduces hComplete ?_ (fun _ _ hVisible => hVisible) .refl
  refine fitsResults_of_kinds fun p found found' hFound hFound' => ?_
  have hBefore := (hCuts.ops.some_iff.mp (op_eq_ok_iff.mp hFound')).1
  cases (op_eq_ok_iff.mp hFound).symm.trans hBefore
  rfl

/- A fold keeps a module sound. -/
theorem foldOp (hLive : ∀ op, m.op o = .ok op → m.Live o)
    (hRun : Module.foldOp o m = .ok changed m') (hComplete : m'.Complete) :
    m'.Sound records := by
  rcases foldOp_eq_ok hRun with ⟨-, rfl, -⟩ | ⟨-, op, hOp, -, hStep⟩
  · exact hSound
  · have hPart := hLive op hOp
    rcases hStep with ⟨value, hFold, hReplace⟩ |
        ⟨v, r, m₁, removed, hFold, hResult, hReplace, hRemove⟩
    · exact hSound.replaceWithConstant hPart hOp hFold hReplace
    · rcases value_of_fold hOp hPart hSound.scopes hSound.verified
          hSound.reached.definitionsKept hSound.faithful
          hFold with ⟨hKind, found, hFound, hType, hYields, hDefined, hVisible⟩
      rw [hResult, List.singleton_inj] at hFound
      subst hFound
      rcases hSound.replaceAllUses hType hYields hDefined hVisible hReplace with
        ⟨hReduces, hSound₁⟩
      rcases hReduces.opsLeft o op (op_eq_ok_iff.mp hOp) List.not_mem_nil with ⟨op₁, hOp₁⟩
      have hSame := (replaceAllUses_ops hReplace).2.2 o.index
      rw [op_eq_ok_iff.mp hOp, hOp₁, Option.map_some, Option.map_some, Option.some.injEq] at hSame
      have hInner : op₁.kind.isTerminator = false ∧ op₁.kind.isSymbol = false := by
        rw [hSame]
        rcases hKind with hKind | hKind
        · rw [hKind]
          exact ⟨rfl, rfl⟩
        · rw [hKind]
          exact ⟨rfl, rfl⟩
      have hPart₁ := hReduces.stays.live_after hSound.reached hSound₁.reached hOp₁ hPart
      rcases hSound₁.verified.place_of_live hPart₁ (op_eq_ok_iff.mpr hOp₁) hInner.2 with
        ⟨home, hPlace⟩
      exact hSound₁.removeOp (op_eq_ok_iff.mpr hOp₁) hInner.1 hPlace hRemove hComplete

end

end Sound

/-
  Folding keeps a module verified whose operations see what they
  use and whose descriptors are read as what they were made from.
-/
theorem Reached.verify_foldAll {n : Nat} (hReached : m.Reached)
    (hVerify : Answers (verify records m) ()) (hScoped : m.Scoped) (hFaithful : m.Faithful)
    (hRun : foldAll m = .ok n m') : Answers (verify records m') () := by
  have hSound : m.Sound records := ⟨hReached, verified_of_verify hVerify, hScoped, hFaithful⟩
  have hRounds : foldRounds (m.ops.size + 1) m = .ok n m' := hRun
  have hSettled := foldRounds_settles (Nat.lt_succ_of_le m.card_openOps_le) hRounds
  rcases foldOnce_eq_ok hSettled with ⟨walked, hWalk, -⟩
  -- the operations of the module level are there in the end, so
  -- they are there after every fold
  have hKept : m'.Reached ∧ (m'.Complete → m'.Sound records) := by
    refine hReached.foldRounds_induction (P := fun m => m.Complete → m.Sound records) ?_ hRounds
      fun _ => hSound
    intro o m₁ changed m₂ _ hLive hStep hBefore hComplete
    have hComplete₁ := hComplete.before (foldOp_folds hStep).shrinks
    exact (hBefore hComplete₁).foldOp hLive hStep hComplete
  exact (hKept.2 (complete_of_walk hWalk)).verified.verify hWalk

----
-- Modules that are folded
----

/-
  A function that makes a descriptor of its argument, loads from
  the address in it, and adds a sum of constants.
-/
def loadsBoxed : List Change := [.newOp .func [] [] (.ofList [("sym_name", .str "f"),
        ("type", .type (.function [.ref (.integer 32)] [.integer 32]))]) 1 [],
    .newBlock ⟨0⟩ [.ref (.integer 32)], .newOp .embox [⟨0⟩] [.box (.integer 32)] {} 0 [],
    .appendOp ⟨0⟩ ⟨1⟩, .newOp .boxAddr [⟨1⟩] [.ref (.integer 32)] {} 0 [], .appendOp ⟨0⟩ ⟨2⟩,
    .newOp .load [⟨2⟩] [.integer 32] {} 0 [], .appendOp ⟨0⟩ ⟨3⟩,
    .newOp .constant [] [.integer 32] (.ofList [("value", .int 20)]) 0 [], .appendOp ⟨0⟩ ⟨4⟩,
    .newOp .addI [⟨4⟩, ⟨4⟩] [.integer 32] {} 0 [], .appendOp ⟨0⟩ ⟨5⟩,
    .newOp .addI [⟨3⟩, ⟨5⟩] [.integer 32] {} 0 [], .appendOp ⟨0⟩ ⟨6⟩, .newOp .ret [⟨6⟩] [] {} 0 [],
    .appendOp ⟨0⟩ ⟨7⟩, .pushTop ⟨0⟩]

theorem Reached.verify_foldAll_loadsBoxed : ∃ m m', m.Reached ∧ Answers (verify {} m) () ∧
      m.Scoped ∧ m.Faithful ∧ foldAll m = .ok 2 m' ∧ Answers (verify {} m') () := by
  have hFolds : ∃ m ∈ (emptyAfter {}).after loadsBoxed, Succeeds foldAll m fun n _ =>
      Answers (verify {} m) () ∧ m.checkScopes = true ∧ m.checkReads = true ∧ n = 2 := by
    decide +kernel
  rcases exists_folded hFolds with ⟨m, n, m', hReached, hRun, hVerify, hScopes, hReads, rfl⟩
  have hScoped := scoped_of_checkScopes hReached.ownersKept hReached.placesKept hScopes
  have hFaithful := faithful_of_checkReads hReached.ownersKept hReads
  exact ⟨m, m', hReached, hVerify, hScoped, hFaithful, hRun,
    hReached.verify_foldAll hVerify hScoped hFaithful hRun⟩

/-
  A function that makes a descriptor of its argument and frees the
  address in it, as if the address were one on the heap.
-/
def freesBoxed : List Change := [.newOp .func [] [] (.ofList [("sym_name", .str "f"),
        ("type", .type (.function [.ref (.integer 32)] []))]) 1 [],
    .newBlock ⟨0⟩ [.ref (.integer 32)], .newOp .embox [⟨0⟩] [.box (.integer 32)] {} 0 [],
    .appendOp ⟨0⟩ ⟨1⟩, .newOp .boxAddr [⟨1⟩] [.heap (.integer 32)] {} 0 [], .appendOp ⟨0⟩ ⟨2⟩,
    .newOp .freeMem [⟨2⟩] [] {} 0 [], .appendOp ⟨0⟩ ⟨3⟩, .newOp .ret [] [] {} 0 [],
    .appendOp ⟨0⟩ ⟨4⟩, .pushTop ⟨0⟩]

/- Folding may break a module that reads a descriptor otherwise. -/
theorem not_verify_foldAll_freesBoxed : ∃ m m', m.Reached ∧ Answers (verify {} m) () ∧ m.Scoped ∧
      foldAll m = .ok 1 m' ∧ ¬ Answers (verify {} m') () := by
  have hFolds : ∃ m ∈ (emptyAfter {}).after freesBoxed, Succeeds foldAll m fun n m' =>
      Answers (verify {} m) () ∧ m.checkScopes = true ∧ n = 1 ∧ ¬ Answers (verify {} m') () := by
    decide +kernel
  rcases exists_folded hFolds with ⟨m, n, m', hReached, hRun, hVerify, hScopes, rfl, hFails⟩
  exact ⟨m, m', hReached, hVerify, scoped_of_checkScopes hReached.ownersKept hReached.placesKept
      hScopes, hRun, hFails⟩

end Module

end FortranIR
