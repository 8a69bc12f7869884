import FortranIR.Proofs.Edit

/-
  This file states what is known of a change of a module that
  has returned, and defines the modules that callers can reach.

  A change that returns has found everything that it looked up.
  So each change is described by what must have been there, and
  by the new module as the old one with some maps replaced.

  Main declarations:
    * `Change`
    * `Module.replaceWithConstant_eq_ok`
-/

namespace FortranIR

variable {α : Type}

----
-- Changes
----

/- A change of a module that a caller can ask for. -/
inductive Change where
  | newOp (kind : OpKind) (operands : List ValueId) (resultTypes : List Ty) (attrs : AttrMap)
      (regionCount : Nat) (successors : List BlockId)
  | newPlaceholder (type : Ty)
  | newBlock (region : RegionId) (argTypes : List Ty)
  | newDetachedBlock (region : RegionId) (argTypes : List Ty)
  | placeBlock (b : BlockId)
  | addBlockArg (b : BlockId) (type : Ty)
  | appendOp (b : BlockId) (o : OpId)
  | pushTop (o : OpId)
  | setAttr (o : OpId) (name : String) (attr : Attr)
  | setSpan (o : OpId) (span : Span)
  | setOperand (o : OpId) (i : Nat) (v : ValueId)
  | replaceAllUses (old new : ValueId)
  | removePlaceholder (v : ValueId)
  | replaceWithConstant (o : OpId) (value : Attr)
  | removeOp (o : OpId)

/- Make a change, and leave its answer aside. -/
def Change.run : Change → Edit Unit
  | .newOp kind operands resultTypes attrs regionCount successors =>
    discard (Module.newOp kind operands resultTypes attrs regionCount successors)
  | .newPlaceholder type => discard (Module.newPlaceholder type)
  | .newBlock region argTypes => discard (Module.newBlock region argTypes)
  | .newDetachedBlock region argTypes => discard (Module.newDetachedBlock region argTypes)
  | .placeBlock b => Module.placeBlock b
  | .addBlockArg b type => discard (Module.addBlockArg b type)
  | .appendOp b o => Module.appendOp b o
  | .pushTop o => Module.pushTop o
  | .setAttr o name attr => Module.setAttr o name attr
  | .setSpan o span => Module.setSpan o span
  | .setOperand o i v => Module.setOperand o i v
  | .replaceAllUses old new => Module.replaceAllUses old new
  | .removePlaceholder v => Module.removePlaceholder v
  | .replaceWithConstant o value => Module.replaceWithConstant o value
  | .removeOp o => discard (Module.removeOp o)

/-
  The modules that come from an empty one by changes that
  return. Handles are shared, so other modules may take some of
  them between two changes.
-/
inductive Module.Reached : Module → Prop where
  | empty (handles : Handles) : Reached (emptyAfter handles)
  | change {m m' : Module} (c : Change) (hReached : Reached m) (hRun : c.run m = .ok () m') :
      Reached m'
  | elsewhere {m : Module} {handles : Handles} (hReached : Reached m)
      (hOp : m.handles.op ≤ handles.op) (hValue : m.handles.value ≤ handles.value)
      (hBlock : m.handles.block ≤ handles.block) (hRegion : m.handles.region ≤ handles.region) :
      Reached { m with handles := handles }

namespace Module

variable {m : Module}

/- The module after some changes, if all of them return. -/
def after (m : Module) (cs : List Change) : Option Module := match cs.forM Change.run m with
  | .ok _ m' => some m'
  | .error _ _ => none

----
-- Steps that return
----

theorem discard_eq_ok {x : Edit α} (hRun : (discard x) m = .ok () m') : ∃ a, x m = .ok a m' := by
  rcases bind_eq_ok hRun with ⟨a, m₁, hFirst, hRest⟩
  cases hRest
  exact ⟨a, hFirst⟩

theorem Reached.after (hReached : m.Reached) (hAfter : m.after cs = some m') :
    m'.Reached := by
  unfold Module.after at hAfter
  cases hRun : cs.forM Change.run m with
  | error e m₁ =>
    rw [hRun] at hAfter
    cases hAfter
  | ok u m₁ =>
    rw [hRun, Option.some.injEq] at hAfter
    subst hAfter
    induction cs generalizing m with
    | nil =>
      cases hRun
      exact hReached
    | cons c cs ih =>
      rcases bind_eq_ok hRun with ⟨_, m₂, hFirst, hRest⟩
      exact ih (hReached.change c hFirst) hRest

/- A new block is created, and then placed. -/
theorem newBlock_eq_ok
    (hRun : (Change.newBlock r types).run m = .ok () m') :
    ∃ b m₁, newDetachedBlock r types m = .ok b m₁ ∧ placeBlock b m₁ = .ok () m' := by
  rcases discard_eq_ok hRun with ⟨_, hNew⟩
  rcases bind_eq_ok hNew with ⟨_, m₁, hDetached, hRest⟩
  rcases bind_eq_ok hRest with ⟨_, _, hPlace, hDone⟩
  cases hDone
  exact ⟨_, m₁, hDetached, hPlace⟩

----
-- Changes of operands
----

/-
  An operand is replaced. The operation stays a user of the old
  value if that is still another operand of it.
-/
theorem setOperand_eq_ok (hRun : setOperand o i v m = .ok () m') :
    ∃ (op : Operation) (old : ValueId) (values : Std.TreeMap Nat ValueInfo),
      m.ops[o.index]? = some op ∧ op.operands[i]? = some old ∧
      (∃ info, m.values[v.index]? = some info) ∧
      m' = { m with
          ops := m.ops.modify o.index fun other => { other with operands := op.operands.set i v }
          values := values } ∧ ∀ k : Nat, values[k]? = m.values[k]?.map fun info =>
        { info with
          users := let users := if old.index = k ∧ old ∉ op.operands.set i v then
                dropUser info.users o
              else info.users
            if v.index = k then addUser users o else users } := by
  rcases read_bind_eq_ok_iff.mp hRun with ⟨op, hOp, hRest⟩
  cases hOld : op.operands[i]? with
  | none =>
    simp only [hOld] at hRest
    cases hRest
  | some old =>
    simp only [hOld] at hRest
    rcases bind_eq_ok hRest with ⟨_, m₁, hUpdate, hUses⟩
    rcases updateOp_eq_ok_iff.mp hUpdate with ⟨-, rfl⟩
    by_cases hKept : old ∈ op.operands.set i v
    · simp only [List.contains_eq_mem, hKept, decide_true,
        Bool.not_true, Bool.false_eq_true, if_false] at hUses
      rcases updateUse_eq_ok_iff.mp hUses with ⟨hNew, rfl⟩
      refine ⟨op, old, _, op_eq_ok_iff.mp hOp, hOld, hNew, rfl, ?_⟩
      intro k
      simp only [getElem?_modify_nat, hKept, not_true, and_false, if_false]
      by_cases hSame : v.index = k <;> simp [hSame]
    · simp only [List.contains_eq_mem, hKept, decide_false, Bool.not_false, if_true] at hUses
      rcases bind_eq_ok hUses with ⟨_, m₂, hDrop, hAdd⟩
      rcases updateUse_eq_ok_iff.mp hDrop with ⟨-, rfl⟩
      rcases updateUse_eq_ok_iff.mp hAdd with ⟨hNew, rfl⟩
      refine ⟨op, old, _, op_eq_ok_iff.mp hOp, hOld, exists_modify_iff.mp hNew, rfl, ?_⟩
      intro k
      simp only [getElem?_modify_nat, hKept, not_false_iff, and_true]
      by_cases hSame : v.index = k <;> by_cases hSameOld : old.index = k <;>
        cases m.values[k]? <;> simp [hSame, hSameOld]

/- The operation has the value as an operand. -/
def uses (m : Module) (o : OpId) (v : ValueId) : Bool :=
  m.ops[o.index]?.any fun op => op.operands.contains v

/- The operation has the block as a successor. -/
def branchesTo (m : Module) (o : OpId) (b : BlockId) : Bool :=
  m.ops[o.index]?.any fun op => op.successors.contains b

/- An operation is no longer among the users of anything. -/
theorem dropUses_eq_ok (hRun : dropUses o m = .ok () m') : ∃ (op : Operation)
        (values : Std.TreeMap Nat ValueInfo) (blocks : Std.TreeMap Nat BlockInfo),
      m.ops[o.index]? = some op ∧ m' = { m with values := values, blocks := blocks } ∧
      (∀ k : Nat, values[k]? = m.values[k]?.map fun info =>
        { info with users := info.users.filter fun u => !(u == o && m.uses u ⟨k⟩) }) ∧
      ∀ k : Nat, blocks[k]? = m.blocks[k]?.map fun info =>
        { info with users := info.users.filter fun u => !(u == o && m.branchesTo u ⟨k⟩) } := by
  rcases read_bind_eq_ok_iff.mp hRun with ⟨op, hOp, hRest⟩
  cases hRest
  have hEntry := op_eq_ok_iff.mp hOp
  have hTwice : ∀ users, dropUser (dropUser users o) o = dropUser users o := by
    simp [dropUser]
  have hUsers : ∀ (users : List OpId) (used : OpId → Bool),
        (users.filter fun u => !(u == o && used u)) =
          if used o then dropUser users o else users := by
    intro users used
    split
    · rename_i hUsed
      apply List.filter_congr
      intro u _
      by_cases hSame : u = o <;> simp [hSame, hUsed]
    · rename_i hUnused
      rw [List.filter_eq_self]
      intro u _
      by_cases hSame : u = o <;> simp [hSame, hUnused]
  refine ⟨op, _, _, hEntry, rfl, ?_, ?_⟩
  · intro k
    rw [getElem?_foldl_modify ValueId.index (f := fun info : ValueInfo =>
        { info with users := dropUser info.users o }) (fun info => by simp [hTwice])]
    have hUsed : m.uses o ⟨k⟩ = true ↔ k ∈ op.operands.map ValueId.index := by
      rw [uses, hEntry, Option.any_some, List.contains_eq_mem, decide_eq_true_eq,
        ValueId.mem_map_index]
    simp only [hUsers, hUsed]
    split <;> simp
  · intro k
    rw [getElem?_foldl_modify BlockId.index (f := fun info : BlockInfo =>
        { info with users := dropUser info.users o }) (fun info => by simp [hTwice])]
    have hUsed : m.branchesTo o ⟨k⟩ = true ↔ k ∈ op.successors.map BlockId.index := by
      rw [branchesTo, hEntry, Option.any_some, List.contains_eq_mem, decide_eq_true_eq,
        BlockId.mem_map_index]
    simp only [hUsers, hUsed]
    split <;> simp

/- An operation becomes a constant, and uses nothing any more. -/
theorem replaceWithConstant_eq_ok {value : Attr}
    (hRun : replaceWithConstant o value m = .ok () m') :
    ∃ op m₁, m.ops[o.index]? = some op ∧ op.results.length = 1 ∧ op.regions = [] ∧
      dropUses o m = .ok () m₁ ∧
      m' = { m₁ with ops := m₁.ops.modify o.index fun op =>
            { op with
              kind := .constant
              operands := []
              successors := []
              attrs := .ofList [("value", value)] } } := by
  simp only [replaceWithConstant, read_bind_eq_ok_iff, check_eq_ok_iff, not_not] at hRun
  rcases hRun with ⟨op, hOp, hResults, hRegions, hRest⟩
  rcases bind_eq_ok hRest with ⟨_, m₁, hDrop, hUpdate⟩
  rcases updateOp_eq_ok_iff.mp hUpdate with ⟨-, rfl⟩
  exact ⟨op, m₁, op_eq_ok_iff.mp hOp, hResults, by simpa using hRegions, hDrop, rfl⟩

end Module

end FortranIR
