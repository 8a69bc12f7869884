import FortranIR.Module.Edit
import FortranIR.Proofs.Steps

/-
  This file states what the changes of a module do to the
  entries of its maps.

  A change is described by one equivalence: it returns if what
  it looks up is there, and the new module is the old one with
  some maps replaced, whose entries are given by lookups.

  Main declarations:
    * `Module.AddsOp`
    * `Module.replaceAllUses_run`
-/

namespace FortranIR

variable {k : Nat} {α β : Type} {v new old : ValueId} {b : BlockId} {vs operands : List ValueId}
variable {r : RegionId} {o : OpId} {bs : List BlockId} {info : ValueInfo} {fault : Fault}
variable {f : Module → Except Fault α} {g : α → Edit β} {users : List OpId}

attribute [ext] OpId ValueId BlockId RegionId

----
-- Lookups
----

theorem orElse_eq_ok_iff : fault.orElse x = .ok a ↔ x = some a := by
  cases x with
  | none | some => simp [Fault.orElse]

/- A lookup of one thing after another. -/
theorem bind_eq_ok_iff {ε : Type} {x : Except ε α} {f : α → Except ε β} {b : β} :
    x >>= f = .ok b ↔ ∃ a, x = .ok a ∧ f a = .ok b := by
  cases x with
  | error | ok => simp [bind, Except.bind]

theorem ok_bind {ε : Type} {f : α → Except ε β} : Except.ok a >>= f = f a := rfl

/- Each entry of a list is looked up by itself. -/
theorem mapM_eq_ok_iff {ε : Type} {f : α → Except ε β} {xs : List α} {ys : List β} :
    xs.mapM f = .ok ys ↔ List.Forall₂ (fun x y => f x = .ok y) xs ys := by
  induction xs generalizing ys with
  | nil => exact ⟨fun hRun => by cases hRun; exact .nil, fun hAll => by cases hAll; rfl⟩
  | cons x xs ih =>
    simp only [List.mapM_cons, bind_eq_ok_iff, ih]
    constructor
    · rintro ⟨y, hFirst, rest, hRest, hDone⟩
      cases hDone
      exact .cons hFirst hRest
    · rintro (_ | ⟨hFirst, hRest⟩)
      exact ⟨_, hFirst, _, hRest, rfl⟩

theorem ValueId.mem_map_index :
    k ∈ vs.map ValueId.index ↔ ⟨k⟩ ∈ vs := by
  rw [List.mem_map]
  exact ⟨by rintro ⟨v, hIn, rfl⟩; exact hIn, fun hIn => ⟨_, hIn, rfl⟩⟩

theorem BlockId.mem_map_index :
    k ∈ bs.map BlockId.index ↔ ⟨k⟩ ∈ bs := by
  rw [List.mem_map]
  exact ⟨by rintro ⟨b, hIn, rfl⟩; exact hIn, fun hIn => ⟨_, hIn, rfl⟩⟩

theorem OpId.mem_map_index {os : List OpId} : k ∈ os.map OpId.index ↔ ⟨k⟩ ∈ os := by
  rw [List.mem_map]
  exact ⟨by rintro ⟨o, hIn, rfl⟩; exact hIn, fun hIn => ⟨_, hIn, rfl⟩⟩

namespace Module

variable {m m' : Module}

theorem op_eq_ok_iff {op : Operation} : m.op o = .ok op ↔ m.ops[o.index]? = some op :=
  orElse_eq_ok_iff

theorem value_eq_ok_iff :
    m.value v = .ok info ↔ m.values[v.index]? = some info := orElse_eq_ok_iff

theorem block_eq_ok_iff {info : BlockInfo} :
    m.block b = .ok info ↔ m.blocks[b.index]? = some info := orElse_eq_ok_iff

theorem region_eq_ok_iff {info : RegionInfo} :
    m.region r = .ok info ↔ m.regions[r.index]? = some info := orElse_eq_ok_iff

theorem typeOf_eq_ok_iff : m.typeOf v = .ok t ↔
      ∃ info, m.values[v.index]? = some info ∧ info.type = t := by
  simp [typeOf, bind_eq_ok_iff, value_eq_ok_iff, pure, Except.pure]

theorem regionBlocks_eq_ok_iff : m.regionBlocks r = .ok bs ↔
      ∃ info, m.regions[r.index]? = some info ∧ info.blocks = bs := by
  simp [regionBlocks, bind_eq_ok_iff, region_eq_ok_iff, pure, Except.pure]

theorem blockOps_eq_ok_iff {os : List OpId} : m.blockOps b = .ok os ↔
      ∃ info region, m.blocks[b.index]? = some info ∧ m.regions[info.region.index]? = some region ∧
        region.ops? b = some os := by
  simp [blockOps, bind_eq_ok_iff, block_eq_ok_iff, region_eq_ok_iff, orElse_eq_ok_iff]

theorem blockOwner_eq_ok_iff {p : OpId} : m.blockOwner b = .ok p ↔
      ∃ info region, m.blocks[b.index]? = some info ∧ m.regions[info.region.index]? = some region ∧
        region.parent = p := by
  simp [blockOwner, bind_eq_ok_iff, block_eq_ok_iff, region_eq_ok_iff, pure, Except.pure]

theorem parentOp?_eq_some_iff : m.parentOp? o = .ok (some p) ↔
      ∃ b, m.places[o.index]? = some b ∧ m.blockOwner b = .ok p := by
  unfold parentOp? parentBlock?
  cases m.places[o.index]? <;> simp [bind_eq_ok_iff, pure, Except.pure]

----
-- Steps
----

/- A lookup does not change the module. -/
theorem read_eq_ok_iff : Edit.read f m = .ok a m' ↔ f m = .ok a ∧ m' = m := by
  rw [Edit.read, get_bind_run]
  cases f m with
  | ok b => exact ⟨by rintro ⟨⟩; exact ⟨rfl, rfl⟩, by rintro ⟨⟨⟩, rfl⟩; rfl⟩
  | error e => exact ⟨by rintro ⟨⟩, by rintro ⟨⟨⟩, -⟩⟩

/- A lookup that another step follows. -/
theorem read_bind_eq_ok_iff {b : β} :
    (Edit.read f >>= g) m = .ok b m' ↔ ∃ a, f m = .ok a ∧ g a m = .ok b m' := by
  simp only [step_bind_eq_ok_iff, read_eq_ok_iff, and_assoc, exists_and_left, exists_eq_left]

/- A check that another step follows. -/
theorem check_eq_ok_iff {cond : Prop} [Decidable cond] {x : Edit β} {b : β} :
    (if cond then throw fault >>= g else x) m = .ok b m' ↔ ¬ cond ∧ x m = .ok b m' := by
  split
  · rename_i hCond
    exact iff_of_false nofun fun hBoth => hBoth.1 hCond
  · rename_i hCond
    rw [and_iff_right hCond]

theorem modify_eq_ok_iff {f : Module → Module} :
    (modify f : Edit Unit) m = .ok u m' ↔ m' = f m := by
  constructor
  · intro hRun
    cases hRun
    rfl
  · rintro rfl
    rfl

theorem updateUse_eq_ok_iff {f : ValueInfo → ValueInfo} : updateUse v f m = .ok () m' ↔
      (∃ info, m.values[v.index]? = some info) ∧
        m' = { m with values := m.values.modify v.index f } := by
  have hRun : updateUse v f m = if m.values.contains v.index = true then
      .ok () { m with values := m.values.modify v.index f } else .error .missingUse m := by
    unfold updateUse
    simp only [bind, EStateM.bind, get, getThe, MonadStateOf.get, EStateM.get]
    split <;> rfl
  rw [hRun, Std.TreeMap.contains_eq_isSome_getElem?]
  cases m.values[v.index]? <;> simp [eq_comm]

theorem updateBlock_eq_ok_iff {f : BlockInfo → BlockInfo} : updateBlock b f m = .ok () m' ↔
      (∃ info, m.blocks[b.index]? = some info) ∧
        m' = { m with blocks := m.blocks.modify b.index f } := by
  simp only [updateBlock, read_bind_eq_ok_iff, block_eq_ok_iff, modify_eq_ok_iff, exists_and_right]

theorem updateRegion_eq_ok_iff {f : RegionInfo → RegionInfo} : updateRegion r f m = .ok () m' ↔
      (∃ info, m.regions[r.index]? = some info) ∧
        m' = { m with regions := m.regions.modify r.index f } := by
  simp only [updateRegion, read_bind_eq_ok_iff, region_eq_ok_iff, modify_eq_ok_iff,
    exists_and_right]

theorem updateOp_eq_ok_iff {f : Operation → Operation} : updateOp o f m = .ok () m' ↔
      (∃ op, m.ops[o.index]? = some op) ∧ m' = { m with ops := m.ops.modify o.index f } := by
  simp only [updateOp, read_bind_eq_ok_iff, op_eq_ok_iff, modify_eq_ok_iff, exists_and_right]

/- An entry that is changed is there before and after. -/
theorem exists_modify_iff {t : Std.TreeMap Nat β} {a : Nat} {f : β → β} :
    (∃ e, (t.modify k f)[a]? = some e) ↔ ∃ e, t[a]? = some e := by
  rw [getElem?_modify_nat]
  split
  · simp [Option.map_eq_some_iff]
  · rfl

/- Some entries of a map are changed, if all of them are there. -/
theorem forM_modify_eq_ok_iff {ι : Type} {index : ι → Nat} (put : Std.TreeMap Nat β → Module)
    {f : β → β} {step : ι → Edit Unit} (hStep : ∀ x t m', step x (put t) = .ok () m' ↔
      (∃ e, t[index x]? = some e) ∧ m' = put (t.modify (index x) f))
    (xs : List ι) (t : Std.TreeMap Nat β) : xs.forM step (put t) = .ok () m' ↔
      (∀ x ∈ xs, ∃ e, t[index x]? = some e) ∧
        m' = put (xs.foldl (fun t x => t.modify (index x) f) t) := by
  induction xs generalizing t with
  | nil =>
    change EStateM.Result.ok () (put t) = .ok () m' ↔ _
    simp [eq_comm]
  | cons x xs ih =>
    change (step x >>= fun _ => xs.forM step) (put t) = .ok () m' ↔ _
    rw [step_bind_eq_ok_iff, List.forall_mem_cons]
    constructor
    · rintro ⟨_, m₁, hFirst, hRest⟩
      rcases (hStep x t m₁).mp hFirst with ⟨hHere, rfl⟩
      rcases (ih _).mp hRest with ⟨hLater, hDone⟩
      exact ⟨⟨hHere, fun y hIn => exists_modify_iff.mp (hLater y hIn)⟩, hDone⟩
    · rintro ⟨⟨hHere, hLater⟩, hDone⟩
      refine ⟨(), _, (hStep x t _).mpr ⟨hHere, rfl⟩, (ih _).mpr ⟨fun y hIn => ?_, hDone⟩⟩
      exact exists_modify_iff.mpr (hLater y hIn)

----
-- New entities
----

/- Some values with consecutive handles. -/
def valueIds (first count : Nat) : List ValueId := (List.range' first count).map ValueId.mk

/- Some regions with consecutive handles. -/
def regionIds (first count : Nat) : List RegionId := (List.range' first count).map RegionId.mk

theorem mem_valueIds : v ∈ valueIds first count ↔
      first ≤ v.index ∧ v.index < first + count := by
  unfold valueIds
  rw [List.mem_map]
  constructor
  · rintro ⟨k, hMember, rfl⟩
    exact List.mem_range'_1.mp hMember
  · intro hBounds
    exact ⟨v.index, List.mem_range'_1.mpr hBounds, rfl⟩

theorem nodup_valueIds (first count : Nat) : (valueIds first count).Nodup := by
  refine List.Nodup.map ?_ List.nodup_range'
  intro a b hSame
  exact congrArg ValueId.index hSame

theorem getElem?_valueIds : (valueIds first count)[i]? = some v ↔
      i < count ∧ v.index = first + i := by
  unfold valueIds
  rw [List.getElem?_map, Option.map_eq_some_iff]
  constructor
  · rintro ⟨k, hIndex, rfl⟩
    have hBelow := (List.getElem?_eq_some_iff.mp hIndex).1
    rw [List.length_range'] at hBelow
    rw [List.getElem?_range' hBelow, Nat.one_mul, Option.some.injEq] at hIndex
    exact ⟨hBelow, hIndex.symm⟩
  · rintro ⟨hBelow, hIndex⟩
    refine ⟨v.index, ?_, rfl⟩
    rw [List.getElem?_range' hBelow, Nat.one_mul, hIndex]

theorem mem_regionIds : r ∈ regionIds first count ↔
      first ≤ r.index ∧ r.index < first + count := by
  unfold regionIds
  rw [List.mem_map]
  constructor
  · rintro ⟨k, hMember, rfl⟩
    exact List.mem_range'_1.mp hMember
  · intro hBounds
    exact ⟨r.index, List.mem_range'_1.mpr hBounds, rfl⟩

theorem nodup_regionIds (first count : Nat) : (regionIds first count).Nodup := by
  refine List.Nodup.map ?_ List.nodup_range'
  intro a b hSame
  exact congrArg RegionId.index hSame

theorem newValues_run (defined : Nat → ValueDef) (i : Nat) (types : List Ty) (m : Module) :
    ∃ values, newValues defined i types m = .ok (valueIds m.handles.value types.length) { m with
            values := values
            handles := { m.handles with value := m.handles.value + types.length } } ∧
      ∀ k, values[k]? = if m.handles.value ≤ k ∧ k < m.handles.value + types.length then
          types[k - m.handles.value]?.map fun t =>
            { type := t
              defined := defined (i + (k - m.handles.value)) }
        else m.values[k]? := by
  induction types generalizing i m with
  | nil =>
    refine ⟨m.values, rfl, fun k => (if_neg ?_).symm⟩
    rw [List.length_nil]
    omega
  | cons t types ih =>
    let next : Module := { m with
        values := m.values.insert m.handles.value { type := t, defined := defined i }
        handles := { m.handles with value := m.handles.value + 1 } }
    have hFirst : newValue { type := t, defined := defined i } m = .ok ⟨m.handles.value⟩ next := rfl
    rcases ih (i + 1) next with ⟨values, hRun, hValues⟩
    refine ⟨values, ?_, ?_⟩
    · refine bind_of_ok hFirst ?_
      refine bind_of_ok hRun ?_
      simp [next, valueIds, List.range'_succ, pure, EStateM.pure, Nat.add_comm, Nat.add_left_comm]
    · intro k
      rw [hValues k]
      simp only [next, getElem?_insert_nat, List.length_cons]
      by_cases hSame : m.handles.value = k
      · subst hSame
        simp only [Nat.sub_self, Nat.add_zero, List.getElem?_cons_zero, Option.map_some, if_true]
        rw [if_neg (by omega), if_pos (by omega)]
      · by_cases hBelow : k < m.handles.value
        · simp [hSame, show ¬ m.handles.value + 1 ≤ k by omega, show ¬ m.handles.value ≤ k by omega]
        · have hIndex : k - m.handles.value = (k - (m.handles.value + 1)) + 1 := by omega
          simp only [hIndex, hSame, List.getElem?_cons_succ, if_false]
          rw [show i + (k - (m.handles.value + 1) + 1) =
            i + 1 + (k - (m.handles.value + 1)) by omega]
          congr 1
          simp only [eq_iff_iff]
          omega

theorem newRegions_run (parent : OpId) (count : Nat) (m : Module) : ∃ regions,
      newRegions parent count m = .ok (regionIds m.handles.region count) { m with
            regions := regions
            handles := { m.handles with region := m.handles.region + count } } ∧
      ∀ k, regions[k]? = if m.handles.region ≤ k ∧ k < m.handles.region + count then
          some { parent := parent }
        else m.regions[k]? := by
  induction count generalizing m with
  | zero => exact ⟨m.regions, rfl, fun k => (if_neg (by omega)).symm⟩
  | succ count ih =>
    let next : Module := { m with
        regions := m.regions.insert m.handles.region { parent := parent }
        handles := { m.handles with region := m.handles.region + 1 } }
    have hFirst : newRegion parent m = .ok ⟨m.handles.region⟩ next := rfl
    rcases ih next with ⟨regions, hRun, hRegions⟩
    refine ⟨regions, ?_, ?_⟩
    · refine bind_of_ok hFirst ?_
      refine bind_of_ok hRun ?_
      simp [next, regionIds, List.range'_succ, pure, EStateM.pure, Nat.add_comm, Nat.add_left_comm]
    · intro k
      rw [hRegions k]
      simp only [next, getElem?_insert_nat]
      by_cases hSame : m.handles.region = k
      · subst hSame
        rw [if_neg (by omega), if_pos rfl, if_pos (by omega)]
      · simp only [hSame, if_false]
        congr 1
        simp only [eq_iff_iff]
        omega

----
-- Users
----

theorem mem_addUser : u ∈ addUser users o ↔ u = o ∨ u ∈ users := by
  unfold addUser
  split
  · rename_i hMember
    rw [List.contains_eq_mem, decide_eq_true_eq] at hMember
    constructor
    · exact .inr
    · rintro (rfl | hOld)
      · exact hMember
      · exact hOld
  · exact List.mem_cons

/- A user is listed once. -/
theorem addUser_addUser (users : List OpId) (o : OpId) :
    addUser (addUser users o) o = addUser users o := by
  unfold addUser
  split
  · simp_all
  · simp

/- An operation becomes a user of some values. -/
theorem addValueUsers_eq_ok_iff : vs.forM (addValueUser o) m = .ok () m' ↔
      (∀ v ∈ vs, ∃ info, m.values[v.index]? = some info) ∧
        m' = { m with values := vs.foldl (fun t v => t.modify v.index fun info =>
            { info with users := addUser info.users o }) m.values } :=
  forM_modify_eq_ok_iff (fun values => { m with values })
    (fun _ _ _ => updateUse_eq_ok_iff) vs m.values

/- An operation becomes a user of some blocks. -/
theorem addBlockUsers_eq_ok_iff : bs.forM (addBlockUser o) m = .ok () m' ↔
      (∀ b ∈ bs, ∃ info, m.blocks[b.index]? = some info) ∧
        m' = { m with blocks := bs.foldl (fun t b => t.modify b.index fun info =>
            { info with users := addUser info.users o }) m.blocks } :=
  forM_modify_eq_ok_iff (fun blocks => { m with blocks })
    (fun _ _ _ => updateBlock_eq_ok_iff) bs m.blocks

----
-- Operations
----

/-
  A module that has got a new operation: its operands and
  successors have one more user, and its results and regions are
  new as well.
-/
def AddsOp (m : Module) (kind : OpKind) (operands : List ValueId) (types : List Ty)
    (attrs : AttrMap) (count : Nat) (successors : List BlockId) (m' : Module) : Prop :=
  ∃ values blocks regions,
    m' =
      { m with
        ops := m.ops.insert m.handles.op
          { kind, operands, attrs, successors
            results := valueIds m.handles.value types.length
            regions := regionIds m.handles.region count }
        values, blocks, regions
        handles :=
          { op := m.handles.op + 1
            value := m.handles.value + types.length
            block := m.handles.block
            region := m.handles.region + count } } ∧
    (∀ k, values[k]? = if m.handles.value ≤ k ∧ k < m.handles.value + types.length then
        types[k - m.handles.value]?.map fun t =>
          { type := t
            defined := .result ⟨m.handles.op⟩ (k - m.handles.value) }
      else
        m.values[k]?.map fun info =>
          if ⟨k⟩ ∈ operands then
            { info with users := addUser info.users ⟨m.handles.op⟩ }
          else info) ∧
    (∀ k, blocks[k]? = m.blocks[k]?.map fun info =>
      if ⟨k⟩ ∈ successors then
        { info with users := addUser info.users ⟨m.handles.op⟩ }
      else info) ∧
    ∀ k, regions[k]? = if m.handles.region ≤ k ∧ k < m.handles.region + count then
        some { parent := ⟨m.handles.op⟩ }
      else m.regions[k]?

theorem newOp_run (kind : OpKind) (types : List Ty) (attrs : AttrMap) (count : Nat)
    (hOperands : ∀ v ∈ operands, ∃ info, m.values[v.index]? = some info)
    (hSuccessors : ∀ b ∈ successors, ∃ info, m.blocks[b.index]? = some info) :
    ∃ m', newOp kind operands types attrs count successors m = .ok ⟨m.handles.op⟩ m' ∧
      m.AddsOp kind operands types attrs count successors m' := by
  let o : OpId := ⟨m.handles.op⟩
  let counted : Module := { m with handles := { m.handles with op := m.handles.op + 1 } }
  let used := operands.foldl (fun t v => t.modify v.index fun info =>
      { info with users := addUser info.users o }) m.values
  let blocks := successors.foldl (fun t b => t.modify b.index fun info =>
      { info with users := addUser info.users o }) m.blocks
  have hUsed : operands.forM (addValueUser o) counted = .ok () { counted with values := used } :=
    addValueUsers_eq_ok_iff.mpr ⟨hOperands, rfl⟩
  have hBlocks : successors.forM (addBlockUser o) { counted with values := used } =
      .ok () { counted with values := used, blocks := blocks } :=
    addBlockUsers_eq_ok_iff.mpr ⟨hSuccessors, rfl⟩
  rcases newValues_run (.result o) 0 types { counted with values := used, blocks := blocks } with
    ⟨values, hValues, hValueEntries⟩
  rcases newRegions_run o count
    { counted with
      values := values
      blocks := blocks
      handles :=
        { counted.handles with
          value := counted.handles.value + types.length } } with ⟨regions, hRegions, hRegionEntries⟩
  refine ⟨_, ?_, values, blocks, regions, rfl, fun k => ?_, fun k => ?_, hRegionEntries⟩
  · refine bind_of_get (bind_of_set ?_)
    refine bind_of_ok hUsed (bind_of_ok hBlocks ?_)
    exact bind_of_ok hValues (bind_of_ok hRegions rfl)
  · rw [hValueEntries k]
    simp only [counted, o, Nat.zero_add]
    congr 1
    exact (getElem?_foldl_modify ValueId.index (fun info => by simp only [addUser_addUser]) _ _ k
      ).trans (by simp only [ValueId.mem_map_index, o])
  · exact (getElem?_foldl_modify BlockId.index (fun info => by simp only [addUser_addUser]) _ _ k
      ).trans (by simp only [BlockId.mem_map_index, o])

/- A new operation has operands and successors that exist. -/
theorem newOp_eq_ok
    (hRun : newOp kind operands types attrs count successors m = .ok o m') :
    o = ⟨m.handles.op⟩ ∧ (∀ v ∈ operands, ∃ info, m.values[v.index]? = some info) ∧
      (∀ b ∈ successors, ∃ info, m.blocks[b.index]? = some info) ∧
      m.AddsOp kind operands types attrs count successors m' := by
  rcases bind_eq_ok hRun with ⟨_, _, hGet, hSet⟩
  cases hGet
  rcases bind_eq_ok hSet with ⟨_, _, hDone, hUses⟩
  cases hDone
  rcases bind_eq_ok hUses with ⟨_, m₁, hValues, hRest⟩
  rcases bind_eq_ok hRest with ⟨_, m₂, hBlocks, -⟩
  rcases addValueUsers_eq_ok_iff.mp hValues with ⟨hOperands, rfl⟩
  have hSuccessors := (addBlockUsers_eq_ok_iff.mp hBlocks).1
  rcases newOp_run (m := m) kind types attrs count hOperands hSuccessors with ⟨_, hRun', hAdds⟩
  cases hRun'.symm.trans hRun
  exact ⟨rfl, hOperands, hSuccessors, hAdds⟩

----
-- Blocks
----

/- What a new block without a place adds to a module. -/
theorem newDetachedBlock_run (r : RegionId) (types : List Ty) (m : Module) : ∃ values,
      newDetachedBlock r types m = .ok ⟨m.handles.block⟩ { m with
            values
            blocks := m.blocks.insert m.handles.block
              { region := r
                args := valueIds m.handles.value types.length }
            handles := { m.handles with
                value := m.handles.value + types.length
                block := m.handles.block + 1 } } ∧
      ∀ k, values[k]? = if m.handles.value ≤ k ∧ k < m.handles.value + types.length then
          types[k - m.handles.value]?.map fun t =>
            { type := t
              defined := .arg ⟨m.handles.block⟩ (k - m.handles.value) }
        else m.values[k]? := by
  let b : BlockId := ⟨m.handles.block⟩
  let counted : Module := { m with handles := { m.handles with block := m.handles.block + 1 } }
  rcases newValues_run (.arg b) 0 types counted with ⟨values, hValues, hEntries⟩
  refine ⟨values, ?_, ?_⟩
  · refine bind_of_get (bind_of_set ?_)
    exact bind_of_ok hValues rfl
  · intro k
    rw [hEntries k]
    simp only [counted, b, Nat.zero_add]

/- A block gets one more argument. -/
theorem addBlockArg_eq_ok_iff : addBlockArg b t m = .ok v m' ↔
      ∃ info, m.blocks[b.index]? = some info ∧ v = ⟨m.handles.value⟩ ∧ m' = { m with
          values := m.values.insert m.handles.value
            { type := t, defined := .arg b info.args.length }
          blocks := m.blocks.modify b.index fun info =>
            { info with args := info.args ++ [⟨m.handles.value⟩] }
          handles := { m.handles with value := m.handles.value + 1 } } := by
  simp only [addBlockArg, read_bind_eq_ok_iff, block_eq_ok_iff]
  refine exists_congr fun info => and_congr_right fun hInfo => ?_
  rw [step_bind_eq_ok_iff]
  constructor
  · rintro ⟨_, _, hNew, hRest⟩
    cases hNew
    rcases bind_eq_ok hRest with ⟨_, _, hUpdate, hDone⟩
    rcases updateBlock_eq_ok_iff.mp hUpdate with ⟨-, rfl⟩
    cases hDone
    exact ⟨rfl, rfl⟩
  · rintro ⟨rfl, rfl⟩
    exact ⟨_, _, rfl, bind_of_ok (updateBlock_eq_ok_iff.mpr ⟨⟨info, hInfo⟩, rfl⟩) rfl⟩

/- A block gets a place at the end of its region. -/
theorem placeBlock_eq_ok_iff : placeBlock b m = .ok () m' ↔ ∃ info region,
      m.blocks[b.index]? = some info ∧ m.regions[info.region.index]? = some region ∧
      b ∉ region.blocks ∧
      m' = { m with regions := m.regions.modify info.region.index fun r =>
            { r with layout := r.layout ++ [(b, [])] } } := by
  simp only [placeBlock, read_bind_eq_ok_iff, block_eq_ok_iff, region_eq_ok_iff, check_eq_ok_iff,
    updateRegion_eq_ok_iff, List.contains_eq_mem, decide_eq_true_eq]
  constructor
  · rintro ⟨info, hInfo, region, hRegion, hNew, -, rfl⟩
    exact ⟨info, region, hInfo, hRegion, hNew, rfl⟩
  · rintro ⟨info, region, hInfo, hRegion, hNew, rfl⟩
    exact ⟨info, hInfo, region, hRegion, hNew, ⟨region, hRegion⟩, rfl⟩

----
-- Places
----

theorem updateLayout_blocks (b : BlockId) (f : List OpId → List OpId)
    (layout : List (BlockId × List OpId)) :
    (updateLayout b f layout).map Prod.fst = layout.map Prod.fst := by
  unfold updateLayout
  rw [List.map_map]
  apply List.map_congr_left
  intro entry _
  simp only [Function.comp_apply]
  split <;> rfl

theorem lookup_updateLayout (b c : BlockId) (f : List OpId → List OpId)
    (layout : List (BlockId × List OpId)) :
    (updateLayout b f layout).lookup c = (layout.lookup c).map fun os =>
        if c = b then f os else os := by
  induction layout with
  | nil => rfl
  | cons entry layout ih =>
    rcases entry with ⟨e, os⟩
    unfold updateLayout at ih ⊢
    by_cases hSame : c = e
    · subst hSame
      by_cases hBlock : c = b
      · simp [hBlock]
      · simp [hBlock]
    · rw [lookup_cons_of_ne hSame, ← ih, List.map_cons]
      by_cases hBlock : e = b
      · simp only [hBlock, if_true]
        rw [lookup_cons_of_ne (hBlock ▸ hSame)]
      · simp only [hBlock, if_false]
        rw [lookup_cons_of_ne hSame]

/- An operation gets a place at the end of a block. -/
theorem appendOp_eq_ok_iff : appendOp b o m = .ok () m' ↔ ∃ info region os,
      m.places[o.index]? = none ∧ m.blocks[b.index]? = some info ∧
      m.regions[info.region.index]? = some region ∧ region.ops? b = some os ∧ o ∉ os ∧
      m' = { m with
          regions := m.regions.modify info.region.index fun r =>
            { r with layout := updateLayout b (· ++ [o]) r.layout }
          places := m.places.insert o.index b } := by
  rw [appendOp, get_bind_run, check_eq_ok_iff]
  simp only [read_bind_eq_ok_iff, block_eq_ok_iff, region_eq_ok_iff]
  constructor
  · rintro ⟨hPlace, info, hInfo, region, hRegion, hRest⟩
    cases hOps : region.ops? b with
    | none =>
      rw [hOps] at hRest
      cases hRest
    | some os =>
      rw [hOps] at hRest
      rcases check_eq_ok_iff.mp hRest with ⟨hNew, hRest⟩
      rcases bind_eq_ok hRest with ⟨_, m₁, hUpdate, hDone⟩
      rcases updateRegion_eq_ok_iff.mp hUpdate with ⟨-, rfl⟩
      cases hDone
      exact ⟨info, region, os, by simpa [parentBlock?] using hPlace, hInfo, hRegion, hOps,
        by simpa using hNew, rfl⟩
  · rintro ⟨info, region, os, hPlace, hInfo, hRegion, hOps, hNew, rfl⟩
    refine ⟨by simp [parentBlock?, hPlace], info, hInfo, region, hRegion, ?_⟩
    rw [hOps]
    refine check_eq_ok_iff.mpr ⟨by simpa using hNew, ?_⟩
    exact bind_of_ok (updateRegion_eq_ok_iff.mpr ⟨⟨region, hRegion⟩, rfl⟩) rfl

/- An operation gets a place at the end of the module level. -/
theorem pushTop_eq_ok_iff : pushTop o m = .ok () m' ↔
      o ∉ m.top ∧ m' = { m with top := m.top ++ [o] } := by
  rw [pushTop, get_bind_run, check_eq_ok_iff, modify_eq_ok_iff, List.contains_eq_mem,
    decide_eq_true_eq]

----
-- Replacement
----

/- The value that takes the place of another one. -/
def replaced (old new v : ValueId) : ValueId := if v = old then new else v

theorem replaced_comp_replaced (old new : ValueId) :
    replaced old new ∘ replaced old new = replaced old new := by
  funext v
  unfold replaced
  simp only [Function.comp_apply]
  split
  · split <;> simp_all
  · rfl

theorem mem_map_replaced : v ∈ vs.map (replaced old new) ↔
      v = new ∧ old ∈ vs ∨ v ≠ old ∧ v ∈ vs := by
  rw [List.mem_map]
  constructor
  · rintro ⟨w, hMember, rfl⟩
    unfold replaced
    split
    · rename_i hSame
      exact .inl ⟨rfl, hSame ▸ hMember⟩
    · rename_i hOther
      exact .inr ⟨hOther, hMember⟩
  · rintro (⟨rfl, hMember⟩ | ⟨hOther, hMember⟩)
    · exact ⟨old, hMember, if_pos rfl⟩
    · exact ⟨v, hMember, if_neg hOther⟩

theorem redirectUser_eq_ok_iff : redirectUser old new o m = .ok () m' ↔
      (∃ op, m.ops[o.index]? = some op) ∧ (∃ info, m.values[new.index]? = some info) ∧
        m' = { m with
          ops := m.ops.modify o.index fun op =>
            { op with operands := op.operands.map (replaced old new) }
          values := m.values.modify new.index fun info =>
            { info with users := addUser info.users o } } := by
  rw [redirectUser, step_bind_eq_ok_iff]
  constructor
  · rintro ⟨_, m₁, hUpdate, hAdd⟩
    rcases updateOp_eq_ok_iff.mp hUpdate with ⟨hOp, rfl⟩
    rcases updateUse_eq_ok_iff.mp hAdd with ⟨hNew, rfl⟩
    exact ⟨hOp, hNew, rfl⟩
  · rintro ⟨hOp, hNew, rfl⟩
    exact ⟨(), _, updateOp_eq_ok_iff.mpr ⟨hOp, rfl⟩, updateUse_eq_ok_iff.mpr ⟨hNew, rfl⟩⟩

/- Some users of a value use another one instead, which exists if there are any. -/
theorem redirectUsers_eq_ok_iff :
    users.forM (redirectUser old new) m = .ok () m' ↔
      (∀ o ∈ users, ∃ op, m.ops[o.index]? = some op) ∧
      (users ≠ [] → ∃ info, m.values[new.index]? = some info) ∧
        m' = { m with
          ops := users.foldl (fun t o => t.modify o.index fun op =>
            { op with operands := op.operands.map (replaced old new) }) m.ops
          values := users.foldl (fun t o => t.modify new.index fun info =>
            { info with users := addUser info.users o }) m.values } := by
  induction users generalizing m with
  | nil =>
    change EStateM.Result.ok () m = .ok () m' ↔ _
    simp [eq_comm]
  | cons o users ih =>
    change (redirectUser old new o >>= fun _ => users.forM (redirectUser old new)) m =
      .ok () m' ↔ _
    rw [step_bind_eq_ok_iff, List.forall_mem_cons]
    constructor
    · rintro ⟨_, m₁, hFirst, hRest⟩
      rcases redirectUser_eq_ok_iff.mp hFirst with ⟨hOp, hNew, rfl⟩
      rcases ih.mp hRest with ⟨hLater, -, hDone⟩
      exact ⟨⟨hOp, fun u hIn => exists_modify_iff.mp (hLater u hIn)⟩, fun _ => hNew, hDone⟩
    · rintro ⟨⟨hOp, hLater⟩, hNew, hDone⟩
      have hThere := hNew nofun
      refine ⟨(), _, redirectUser_eq_ok_iff.mpr ⟨hOp, hThere, rfl⟩, ih.mpr ⟨?_, ?_, hDone⟩⟩
      · exact fun u hIn => exists_modify_iff.mpr (hLater u hIn)
      · exact fun _ => exists_modify_iff.mpr hThere

theorem getElem?_foldl_addUser (users : List OpId) (values : Std.TreeMap Nat ValueInfo)
    (i k : Nat) : (users.foldl (fun t o => t.modify i fun info =>
        { info with users := addUser info.users o }) values)[k]? = values[k]?.map fun info =>
      if k = i then { info with users := users.foldl addUser info.users } else info := by
  induction users generalizing values with
  | nil => simp
  | cons o users ih =>
    rw [List.foldl_cons, ih, getElem?_modify_nat]
    by_cases hSame : i = k
    · subst hSame
      cases values[i]? <;> simp
    · simp [hSame, Ne.symm hSame]

/-
  A value has taken the place of another one in the operations
  that used it, which has lost all its users.
-/
def Redirects (m : Module) (old new : ValueId) (info : ValueInfo)
    (ops : Std.TreeMap Nat Operation) (values : Std.TreeMap Nat ValueInfo) : Prop :=
  (∀ k, ops[k]? = m.ops[k]?.map fun op =>
    if ⟨k⟩ ∈ info.users then { op with operands := op.operands.map (replaced old new) }
    else op) ∧ (values[old.index]? = some { info with users := [] }) ∧
  ∀ k, k ≠ old.index → values[k]? = m.values[k]?.map fun other =>
      if k = new.index then
        { other with users := info.users.foldl addUser other.users }
      else other

/- Values keep their types, and are defined where they were. -/
theorem Redirects.sources {ops : Std.TreeMap Nat Operation}
    {values : Std.TreeMap Nat ValueInfo} (hRedirects : m.Redirects old new info ops values)
    (hInfo : m.values[old.index]? = some info) (k : Nat) :
    (values[k]?.map fun info => (info.type, info.defined)) =
      m.values[k]?.map fun info => (info.type, info.defined) := by
  by_cases hKey : k = old.index
  · subst hKey
    simp only [hRedirects.2.1, hInfo, Option.map_some]
  · simp only [hRedirects.2.2 k hKey, Option.map_map]
    split <;> rfl

/-
  A value takes the place of another one everywhere. It has to
  exist only if there is a use.
-/
theorem replaceAllUses_eq_ok (hDistinct : old ≠ new) (hRun : replaceAllUses old new m = .ok () m') :
    ∃ info ops values, m.values[old.index]? = some info ∧ (info.users ≠ [] →
        ∃ other, m.values[new.index]? = some other) ∧ m' = { m with ops := ops, values := values } ∧
      m.Redirects old new info ops values := by
  have hIndex : old.index ≠ new.index := fun hSame => hDistinct (ValueId.ext hSame)
  rw [replaceAllUses, if_neg hDistinct, get_bind_run] at hRun
  cases hOld : m.values[old.index]? with
  | none =>
    simp only [hOld] at hRun
    cases hRun
  | some info =>
    simp only [hOld] at hRun
    rcases bind_eq_ok hRun with ⟨_, m₁, hClear, hRedirect⟩
    rcases updateUse_eq_ok_iff.mp hClear with ⟨-, rfl⟩
    rcases redirectUsers_eq_ok_iff.mp hRedirect with ⟨-, hNew, rfl⟩
    refine ⟨info, _, _, rfl, fun hUsed => exists_modify_iff.mp (hNew hUsed), rfl,
      fun k => ?_, ?_, fun k hOther => ?_⟩
    · rw [getElem?_foldl_modify OpId.index fun op => by
        simp only [List.map_map, replaced_comp_replaced]]
      simp only [OpId.mem_map_index]
    · rw [getElem?_foldl_addUser, getElem?_modify_nat, hOld]
      simp [hIndex]
    · rw [getElem?_foldl_addUser, getElem?_modify_nat, if_neg (Ne.symm hOther)]

theorem replaceAllUses_run (hDistinct : old ≠ new) (hOld : m.values[old.index]? = some info)
    (hUsers : ∀ o ∈ info.users, ∃ op, m.ops[o.index]? = some op)
    (hNew : ∃ info, m.values[new.index]? = some info) :
    ∃ ops values, replaceAllUses old new m = .ok () { m with ops := ops, values := values } ∧
      m.Redirects old new info ops values := by
  have hRun : ∃ m', replaceAllUses old new m = .ok () m' := by
    rw [replaceAllUses, if_neg hDistinct]
    simp only [get_bind_run, hOld]
    exact ⟨_, bind_of_ok (updateUse_eq_ok_iff.mpr ⟨⟨info, hOld⟩, rfl⟩)
      (redirectUsers_eq_ok_iff.mpr ⟨hUsers, fun _ => exists_modify_iff.mpr hNew, rfl⟩)⟩
  rcases hRun with ⟨m', hRun⟩
  rcases replaceAllUses_eq_ok hDistinct hRun with ⟨info', ops, values, hInfo, -, rfl, hRedirects⟩
  cases hOld.symm.trans hInfo
  exact ⟨ops, values, hRun, hRedirects⟩

/- A placeholder without users is removed. -/
theorem removePlaceholder_eq_ok_iff : removePlaceholder v m = .ok () m' ↔ ∃ info,
      m.values[v.index]? = some info ∧ info.defined = .placeholder ∧ info.users = [] ∧
      m' = { m with values := m.values.erase v.index } := by
  simp only [removePlaceholder, read_bind_eq_ok_iff, value_eq_ok_iff]
  refine exists_congr fun info => and_congr_right fun _ => ?_
  rw [modify_bind_run, check_eq_ok_iff, not_not]
  refine and_congr_right fun _ => ?_
  cases info.users with
  | nil =>
    change EStateM.Result.ok () _ = .ok () m' ↔ _
    simp [eq_comm]
  | cons o users => exact iff_of_false nofun nofun

end Module

end FortranIR
