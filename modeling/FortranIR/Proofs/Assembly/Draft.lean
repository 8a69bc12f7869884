import FortranIR.Proofs.Assembly.Assembled
import FortranIR.Proofs.Reading.Excerpts
import FortranIR.Proofs.Scope

/-
  This file states what holds of a draft while names are being
  resolved, and how steps of assembly are composed.

  A step either keeps the log and establishes what it should, or
  it logs an error. In the second case some rule of scoping is
  broken, so a step is described once for texts that follow the
  rules and for texts that do not.

  Main declarations:
    * `Assemble.Grows`
    * `BlockLabels.Sound`
-/

namespace FortranIR

variable {span : Span} {message : String}

----
-- Outcomes of steps
----

namespace Assemble

variable {α β : Type} {holds : β → Draft → Prop} {f : α → Assemble β} {xs : List α} {a : α}
variable {change : Edit α} {x : Assemble α}

/- The step does not forget errors. -/
def Grows (x : Assemble α) : Prop := ∀ d, d.log.errors ≤ (stateAfter (x d)).log.errors

/-
  The step succeeds with something that holds afterwards, and
  logs nothing. Or it logs an error, and the rule is broken.
-/
def Steps (rule : Prop) (x : Assemble α) (d : Draft) (holds : α → Draft → Prop) : Prop :=
  (∃ a d', x d = .ok a d' ∧ d'.log = d.log ∧ holds a d') ∨
    d.log.errors < (stateAfter (x d)).log.errors ∧ ¬ rule

----
-- Errors are not forgotten
----

theorem Grows.pure (a : α) : Grows (Pure.pure a) := fun _ => .refl

theorem Grows.bind (hFirst : Grows x) (hNext : ∀ a, Grows (f a)) : Grows (x >>= f) := by
  intro d
  have hLog := hFirst d
  cases hRun : x d with
  | ok a d' =>
    rw [hRun] at hLog
    rw [bind_of_ok hRun rfl]
    exact Nat.le_trans hLog (hNext a d')
  | error e d' =>
    rw [hRun] at hLog
    rw [bind_of_error hRun]
    exact hLog

theorem Grows.get_bind {f : Draft → Assemble β} (hNext : ∀ d, Grows (f d)) : Grows (get >>= f) :=
  fun d => hNext d d

theorem Grows.modify {f : Draft → Draft} (hLog : ∀ d, (f d).log = d.log) : Grows (modify f) := by
  intro d
  change d.log.errors ≤ (f d).log.errors
  exact Nat.le_of_eq (by rw [hLog d])

theorem Grows.edit (f : Edit α) : Grows (edit f) := by
  intro d
  unfold Assemble.edit
  cases f d.module with
  | ok a m => exact .refl
  | error e m => exact .refl

theorem Grows.forM {f : α → Assemble Unit} (hEach : ∀ a, Grows (f a)) : Grows (xs.forM f) :=
  forM_of_each (.pure ()) (fun _ _ hX hY => .bind hX fun _ => hY) fun a _ => hEach a

theorem Grows.mapM (hEach : ∀ a, Grows (f a)) : Grows (xs.mapM f) := by
  induction xs with
  | nil => exact .pure []
  | cons a xs ih =>
    rw [List.mapM_cons]
    exact .bind (hEach a) fun _ => .bind ih fun _ => .pure _

theorem errors_error (span : Span) (message : String) (d : Draft) :
    (stateAfter (error span message d)).log.errors = d.log.errors + 1 := by
  unfold error
  rcases Log.report_cases .error (some span) message d.log with
    ⟨l, hRun | ⟨hRun, -⟩, -, hErrors⟩
  all_goals
    rw [hRun]
    exact hErrors

theorem Grows.error (span : Span) (message : String) : Grows (error span message) := by
  intro d
  rw [errors_error]
  exact Nat.le_succ _

----
-- Composition of steps
----

namespace Steps

variable {rule : Prop} {d : Draft}

theorem of_ok {holds : α → Draft → Prop} (hRun : x d = .ok a d') (hLog : d'.log = d.log)
    (hHolds : holds a d') : Steps rule x d holds := .inl ⟨a, d', hRun, hLog, hHolds⟩

theorem pure {holds : α → Draft → Prop} (hHolds : holds a d) : Steps rule (Pure.pure a) d holds :=
  .of_ok rfl rfl hHolds

theorem mono {holds holds' : α → Draft → Prop} (hSteps : Steps rule x d holds)
    (hMore : ∀ a d', holds a d' → holds' a d') : Steps rule x d holds' := by
  rcases hSteps with ⟨a, d', hRun, hLog, hHolds⟩ | hError
  · exact .inl ⟨a, d', hRun, hLog, hMore a d' hHolds⟩
  · exact .inr hError

theorem bind (hFirst : Steps rule x d fun a d' => Steps rule (f a) d' holds)
    (hGrows : ∀ a, Grows (f a)) : Steps rule (x >>= f) d holds := by
  rcases hFirst with ⟨a, d₁, hRun, hLog, hNext⟩ | ⟨hErrors, hBroken⟩
  · unfold Steps
    rw [bind_of_ok hRun rfl, ← hLog]
    exact hNext
  · refine .inr ⟨?_, hBroken⟩
    cases hRun : x d with
    | ok a d₁ =>
      rw [hRun] at hErrors
      rw [bind_of_ok hRun rfl]
      exact Nat.lt_of_lt_of_le hErrors (hGrows a d₁)
    | error e d₁ =>
      rw [hRun] at hErrors
      rw [bind_of_error hRun]
      exact hErrors

theorem bind_ok (hRun : x d = .ok a d') (hLog : d'.log = d.log)
    (hNext : Steps rule (f a) d' holds) : Steps rule (x >>= f) d holds := by
  unfold Steps
  rw [bind_of_ok hRun rfl, ← hLog]
  exact hNext

theorem get_bind {f : Draft → Assemble β} (hNext : Steps rule (f d) d holds) :
    Steps rule (get >>= f) d holds := hNext

theorem modify_bind {change : Draft → Draft} {f : PUnit → Assemble β}
    (hLog : (change d).log = d.log) (hNext : Steps rule (f ⟨⟩) (change d) holds) :
    Steps rule (modify change >>= f) d holds := by
  unfold Steps at hNext ⊢
  rw [hLog] at hNext
  exact hNext

theorem error {holds : Unit → Draft → Prop} (hBroken : ¬ rule) :
    Steps rule (Assemble.error span message) d holds := by
  refine .inr ⟨?_, hBroken⟩
  rw [errors_error]
  exact Nat.lt_succ_self _

/- A rule that is broken shows in the log from then on. -/
theorem bind_error {f : Unit → Assemble β} (hBroken : ¬ rule) (hGrows : ∀ a, Grows (f a)) :
    Steps rule (Assemble.error span message >>= f) d holds := bind (error hBroken) hGrows

section

variable (hRun : change d.module = .ok a m)
include hRun

theorem edit_run :
    Assemble.edit change d = .ok a { d with module := m } := by
  unfold Assemble.edit
  rw [hRun]

theorem edit {holds : α → Draft → Prop}
    (hHolds : holds a { d with module := m }) : Steps rule (Assemble.edit change) d holds :=
  .of_ok (edit_run hRun) rfl hHolds
theorem edit_bind (hNext : Steps rule (f a) { d with module := m } holds) :
    Steps rule (Assemble.edit change >>= f) d holds := bind_ok (edit_run hRun) rfl hNext
end
theorem read_bind {look : Module → Except Fault α} (hFound : look d.module = .ok a)
    (hNext : Steps rule (f a) d holds) : Steps rule (read look >>= f) d holds :=
  edit_bind (Module.read_eq_ok_iff.mpr ⟨hFound, rfl⟩) hNext
end Steps
end Assemble
----
-- Drafts that follow the rules
----
/- The placeholders that wait for a value. -/
def Draft.waiting (d : Draft) : List ValueId := d.forward.map fun e => e.2.1
/-
  A draft in the middle of an operation of the module level, in
  which `done` have been defined and `all` are defined in the
  end. Every placeholder waits under one name. The values in
  `reserved` exist, but are not named yet.
-/
structure Draft.Good (rule : Prop) (all done : List (String × Ty)) (reserved : List ValueId)
    (top : List OpId) (d : Draft) : Prop where
  assembled : d.module.Assembled
  top : d.module.top = top
  operands : ∀ (o : OpId) (op : Operation) (v : ValueId), d.module.ops[o.index]? = some op →
      v ∈ op.operands →
      ∃ info, d.module.values[v.index]? = some info ∧ (info.defined = .placeholder → v ∈ d.waiting)
  forwardNames : (d.forward.map Prod.fst).Nodup
  forwardIds : d.waiting.Nodup
  forward : ∀ e ∈ d.forward, ∃ info, d.module.values[e.2.1.index]? = some info ∧
      info.defined = .placeholder ∧ (rule → (e.1, info.type) ∈ all)
  disjoint : ∀ e ∈ d.forward, e.1 ∉ done.map Prod.fst
  doneNames : (done.map Prod.fst).Nodup
  valueNames : d.values.map Prod.fst = (done.map Prod.fst).reverse
  values : ∀ e ∈ d.values, ∃ info, d.module.values[e.2.index]? = some info ∧
      info.defined ≠ .placeholder ∧ (e.1, info.type) ∈ done
  distinct : (reserved ++ d.values.map Prod.snd).Nodup
  reserved : ∀ v ∈ reserved, ∃ info, d.module.values[v.index]? = some info ∧
      info.defined ≠ .placeholder
theorem Draft.Good.bounded {rule : Prop} {all done : List (String × Ty)} {reserved : List ValueId}
    {top : List OpId} {d : Draft} (hGood : d.Good rule all done reserved top) : d.module.Bounded :=
  hGood.assembled.bounded
/-
  A draft has grown into another one, and names follow their
  values.
-/
structure Draft.Leads (σ : ValueId → ValueId) (openRegion : RegionId → Prop)
    (openBlock : BlockId → Prop) (d d' : Draft) : Prop where
  frame : d.module.Frame σ openRegion openBlock d'.module
  names : ∀ n v, Assemble.known? d n = some v → Assemble.known? d' n = some (σ v)
/- The names of blocks keep their blocks. -/
def BlockLabels.Before (labels labels' : BlockLabels) : Prop := labels'.region = labels.region ∧
    ∀ n label, labels.blocks.lookup n = some label → ∃ label',
        labels'.blocks.lookup n = some label' ∧ label'.block = label.block
/-
  The labels of an open region, in which the blocks in `done`
  have been defined and those in `around` are in the end.
-/
structure BlockLabels.Sound (rule : Prop) (around done : List String) (m : Module)
    (labels : BlockLabels) : Prop where
  region : ∃ bs, m.regionBlocks labels.region = .ok bs ∧ List.Forall₂ (fun b n =>
          ∃ label, labels.blocks.lookup n = some label ∧ label.block = b) bs done
  defined : ∀ n label, labels.blocks.lookup n = some label → (label.defined = true ↔ n ∈ done)
  blocks : ∀ n label, labels.blocks.lookup n = some label → ∃ info,
        m.blocks[label.block.index]? = some info ∧ info.region = labels.region ∧
        (label.defined = false → info.args = [])
  distinct : ∀ n n' label label', labels.blocks.lookup n = some label →
      labels.blocks.lookup n' = some label' → label.block = label'.block → n = n'
  expected : rule → ∀ n label, labels.blocks.lookup n = some label → n ∈ around
  nodup : done.Nodup
/- A branch names a block of a region by its label. -/
def BlockLabels.Names (labels : BlockLabels) (around : List String) (b : BlockId)
    (i : Nat) : Prop :=
  ∃ n label, labels.blocks.lookup n = some label ∧ label.block = b ∧ i = around.idxOf n
end FortranIR
