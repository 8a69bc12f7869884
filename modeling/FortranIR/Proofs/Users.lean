import FortranIR.Proofs.Removal

/-
  This file proves that every module that callers can reach
  keeps exact lists of users: an operation is listed as a user
  of a value if and only if it has the value as an operand, and
  of a block if and only if it branches to the block.

  Values and blocks are tracked in the same way. Every change
  has a step lemma. Changes that touch no operand and no
  successor share one lemma, and so do those that take
  operations out of the lists.

  Main declarations:
    * `Refers`, `ListsUsers`
    * `Module.Reached.usersKept`
    * `Module.Reached.replaceAllUses_everywhere`
-/

namespace FortranIR

variable {o : OpId} {op : Operation}
variable {info : ValueInfo}

----
-- Tracked entities
----

/- An operation refers to an entity. -/
def Refers {ι : Type} (refs : Operation → List ι) (ops : Std.TreeMap Nat Operation) (o : OpId)
    (x : ι) : Prop := ∃ op, ops[o.index]? = some op ∧ x ∈ refs op

/-
  The lists of users of some entities are exact. What is referred
  to need not exist any more, but its handle has been given out.
-/
structure ListsUsers {ι β : Type} (refs : Operation → List ι) (index : ι → Nat)
    (listed : β → List OpId) (ops : Std.TreeMap Nat Operation) (table : Std.TreeMap Nat β)
    (handle : Nat) : Prop where
  given : ∀ o x, Refers refs ops o x → index x < handle
  entries : ∀ x e, table[index x]? = some e → index x < handle
  exact : ∀ x e, table[index x]? = some e → ∀ o, o ∈ listed e ↔ Refers refs ops o x

section ListsUsers

variable {ι β : Type} {refs : Operation → List ι} {index : ι → Nat} {listed : β → List OpId}
variable {ops : Std.TreeMap Nat Operation} {table table' : Std.TreeMap Nat β}
variable {x : ι}

theorem refers_congr (hOps : ops'[o.index]?.map refs = ops[o.index]?.map refs) :
    Refers refs ops' o x ↔ Refers refs ops o x := by
  constructor
  · rintro ⟨op, hOp, hIn⟩
    rcases exists_of_map_eq hOps.symm hOp with ⟨old, hOld, hSame⟩
    exact ⟨old, hOld, hSame ▸ hIn⟩
  · rintro ⟨op, hOp, hIn⟩
    rcases exists_of_map_eq hOps hOp with ⟨new, hNew, hSame⟩
    exact ⟨new, hNew, hSame ▸ hIn⟩

theorem refers_iff (hOp : ops[o.index]? = some op) : Refers refs ops o x ↔ x ∈ refs op := by
  simp [Refers, hOp]

/- The references in a map in which one operation is new. -/
theorem refers_update (hOps : ∀ k : Nat, ops'[k]? = if o.index = k then some op else ops[k]?) :
    Refers refs ops' u x ↔ if u = o then x ∈ refs op else Refers refs ops u x := by
  unfold Refers
  rw [hOps]
  by_cases hSame : u = o
  · simp [hSame]
  · have hIndex : o.index ≠ u.index := fun hEq => hSame (OpId.ext hEq.symm)
    simp [hSame, hIndex]

/- A new entry without users is the only change to a table. -/
theorem old_or_added (listed : β → List OpId)
    (hBelow : ∀ k e, table[k]? = some e → k < handle) (hNone : listed e = [])
    (hFound : (table.insert handle e)[k]? = some found) : k < handle + 1 ∧
      ((∃ old, table[k]? = some old ∧ listed found = listed old) ∨
        handle ≤ k ∧ listed found = []) := by
  rw [getElem?_insert_nat] at hFound
  split at hFound
  · rename_i hSame
    cases hFound
    exact ⟨Nat.lt_succ_of_le (Nat.le_of_eq hSame.symm), .inr ⟨Nat.le_of_eq hSame, hNone⟩⟩
  · exact ⟨Nat.lt_succ_of_lt (hBelow k found hFound), .inl ⟨found, hFound, rfl⟩⟩

namespace ListsUsers

variable (hLists : ListsUsers refs index listed ops table handle)
include hLists

/-
  A change that leaves all references as they are, and adds
  entities without users.
-/
theorem of_additions (hOps : ∀ k : Nat, ops'[k]?.map refs = ops[k]?.map refs)
    (hHandle : handle ≤ handle') (hEntries : ∀ x e, table'[index x]? = some e →
      index x < handle' ∧ ((∃ old, table[index x]? = some old ∧ listed e = listed old) ∨
        handle ≤ index x ∧ listed e = [])) : ListsUsers refs index listed ops' table' handle' where
  given o x hRefers := Nat.lt_of_lt_of_le
    (hLists.given o x ((refers_congr (hOps o.index)).mp hRefers)) hHandle
  entries x e hEntry := (hEntries x e hEntry).1
  exact x e hEntry o := by
    rw [refers_congr (hOps o.index)]
    rcases (hEntries x e hEntry).2 with ⟨old, hOld, hSame⟩ | ⟨hNew, hNone⟩
    · rw [hSame, hLists.exact x old hOld]
    · refine iff_of_false (by simp [hNone]) fun hRefers => ?_
      exact absurd (hLists.given o x hRefers) (Nat.not_lt.mpr hNew)

/- A new operation is listed where it refers to. -/
theorem insert (hFresh : ops[o.index]? = none)
    (hRefs : ∀ x ∈ refs op, ∃ e, table[index x]? = some e) (hHandle : handle ≤ handle')
    (hEntries : ∀ x e, table'[index x]? = some e → index x < handle' ∧
      ((∃ old, table[index x]? = some old ∧
          ∀ u, u ∈ listed e ↔ u ∈ listed old ∨ u = o ∧ x ∈ refs op) ∨
        handle ≤ index x ∧ listed e = [])) :
    ListsUsers refs index listed (ops.insert o.index op) table' handle' := by
  have hRefers : ∀ u x, Refers refs (ops.insert o.index op) u x ↔
        Refers refs ops u x ∨ u = o ∧ x ∈ refs op := by
    intro u x
    rw [refers_update fun _ => getElem?_insert_nat]
    split
    · rename_i hSame
      have hNone : ¬ Refers refs ops u x := by
        rintro ⟨old, hOld, -⟩
        rw [hSame, hFresh] at hOld
        cases hOld
      simp [hSame, hSame ▸ hNone]
    · rename_i hOther
      simp [hOther]
  have hBelow : ∀ u x, Refers refs (ops.insert o.index op) u x → index x < handle := by
    intro u x hNow
    rcases (hRefers u x).mp hNow with hBefore | ⟨-, hIn⟩
    · exact hLists.given u x hBefore
    · rcases hRefs x hIn with ⟨e, hEntry⟩
      exact hLists.entries x e hEntry
  refine ⟨fun u x hNow => Nat.lt_of_lt_of_le (hBelow u x hNow) hHandle,
    fun x e hEntry => (hEntries x e hEntry).1, fun x e hEntry u => ?_⟩
  rcases (hEntries x e hEntry).2 with ⟨old, hOld, hListed⟩ | ⟨hNew, hNone⟩
  · rw [hListed, hLists.exact x old hOld, hRefers]
  · -- nothing refers to a handle that had not been given out
    refine iff_of_false (by simp [hNone]) fun hNow => ?_
    exact absurd (hBelow u x hNow) (Nat.not_lt.mpr hNew)

/-
  A change that takes some operations out of the lists of users,
  and lets them refer to nothing any more.
-/
theorem of_dropped (gone : OpId → Prop)
    (hRefers : ∀ u x, Refers refs ops' u x ↔ Refers refs ops u x ∧ ¬ gone u)
    (hEntries : ∀ x e, table'[index x]? = some e → ∃ old, table[index x]? = some old ∧
      ∀ u, u ∈ listed e ↔ u ∈ listed old ∧ ¬ (gone u ∧ Refers refs ops u x)) :
    ListsUsers refs index listed ops' table' handle where
  given u x hNow := hLists.given u x ((hRefers u x).mp hNow).1
  entries x e hEntry := by
    rcases hEntries x e hEntry with ⟨old, hOld, -⟩
    exact hLists.entries x old hOld
  exact x e hEntry u := by
    rcases hEntries x e hEntry with ⟨old, hOld, hListed⟩
    rw [hListed, hRefers, hLists.exact x old hOld]
    exact ⟨fun h => ⟨h.1, fun hGone => h.2 ⟨hGone, h.1⟩⟩, fun h => ⟨h.1, fun hBoth => h.2 hBoth.1⟩⟩

end ListsUsers

end ListsUsers

namespace Module

----
-- Lists of users
----

/-
  The lists of users are exact. Operands and successors need not
  exist any more, but their handles have been given out, so no
  new entity gets one of them.
-/
structure UsersKept (m : Module) : Prop where
  ops : ∀ k op, m.ops[k]? = some op → k < m.handles.op ∧
      (∀ v ∈ op.operands, v.index < m.handles.value) ∧
      ∀ b ∈ op.successors, b.index < m.handles.block
  values : ∀ k info, m.values[k]? = some info → k < m.handles.value
  blocks : ∀ k info, m.blocks[k]? = some info → k < m.handles.block
  valueUsers : ∀ k info, m.values[k]? = some info → ∀ o, o ∈ info.users ↔ m.uses o ⟨k⟩ = true
  blockUsers : ∀ k info, m.blocks[k]? = some info → ∀ o, o ∈ info.users ↔ m.branchesTo o ⟨k⟩ = true

variable {m m' : Module}

theorem uses_iff : m.uses o v = true ↔ Refers Operation.operands m.ops o v := by
  unfold uses Refers
  cases m.ops[o.index]? with
  | none => simp
  | some op => simp

theorem branchesTo_iff :
    m.branchesTo o b = true ↔ Refers Operation.successors m.ops o b := by
  unfold branchesTo Refers
  cases m.ops[o.index]? with
  | none => simp
  | some op => simp

/- The values have exact lists of users. -/
abbrev ValuesTracked (m : Module) : Prop :=
  ListsUsers Operation.operands ValueId.index ValueInfo.users m.ops m.values m.handles.value

/- The blocks have exact lists of users. -/
abbrev BlocksTracked (m : Module) : Prop :=
  ListsUsers Operation.successors BlockId.index BlockInfo.users m.ops m.blocks m.handles.block

theorem UsersKept.valuesTracked (hKept : m.UsersKept) : m.ValuesTracked where
  given o v := by
    rintro ⟨op, hOp, hIn⟩
    exact (hKept.ops _ op hOp).2.1 v hIn
  entries v := hKept.values v.index
  exact v info hInfo o := (hKept.valueUsers _ info hInfo o).trans uses_iff

theorem UsersKept.blocksTracked (hKept : m.UsersKept) : m.BlocksTracked where
  given o b := by
    rintro ⟨op, hOp, hIn⟩
    exact (hKept.ops _ op hOp).2.2 b hIn
  entries b := hKept.blocks b.index
  exact b info hInfo o := (hKept.blockUsers _ info hInfo o).trans branchesTo_iff

theorem UsersKept.of_tracked (hOps : ∀ k op, m.ops[k]? = some op → k < m.handles.op)
    (hValues : m.ValuesTracked) (hBlocks : m.BlocksTracked) : m.UsersKept where
  ops k op hOp := ⟨hOps k op hOp, fun v hIn => hValues.given ⟨k⟩ v ⟨op, hOp, hIn⟩,
    fun b hIn => hBlocks.given ⟨k⟩ b ⟨op, hOp, hIn⟩⟩
  values k := hValues.entries ⟨k⟩
  blocks k := hBlocks.entries ⟨k⟩
  valueUsers k info hInfo o := (hValues.exact ⟨k⟩ info hInfo o).trans uses_iff.symm
  blockUsers k info hInfo o := (hBlocks.exact ⟨k⟩ info hInfo o).trans branchesTo_iff.symm

/- A change of one operation, as one that is new. -/
theorem getElem?_modify_op (hOp : m.ops[o.index]? = some op) (f : Operation → Operation) (k : Nat) :
    (m.ops.modify o.index f)[k]? = if o.index = k then some (f op) else m.ops[k]? := by
  rw [getElem?_modify_nat]
  split
  · rename_i hSame
    rw [← hSame, hOp, Option.map_some]
  · rfl

theorem mem_foldl_addUser {added : List OpId} :
    u ∈ added.foldl addUser users ↔ u ∈ added ∨ u ∈ users := by
  induction added generalizing users with
  | nil => simp
  | cons o added ih =>
    rw [List.foldl_cons, ih, mem_addUser, List.mem_cons]
    exact ⟨fun h => by tauto, fun h => by tauto⟩

theorem mem_dropUser : u ∈ dropUser users o ↔ u ∈ users ∧ u ≠ o := by simp [dropUser]

/- Replacing an element matters for the old and the new one only. -/
theorem mem_set_iff {α : Type} {xs : List α} {old new x : α} (hOld : xs[i]? = some old)
    (hNotOld : x ≠ old) (hNotNew : x ≠ new) : x ∈ xs.set i new ↔ x ∈ xs := by
  constructor
  · intro hIn
    exact (List.mem_or_eq_of_mem_set hIn).resolve_right hNotNew
  · intro hIn
    rcases List.mem_iff_getElem?.mp hIn with ⟨j, hAt⟩
    refine List.mem_iff_getElem?.mpr ⟨j, ?_⟩
    rw [List.getElem?_set_ne]
    · exact hAt
    · rintro rfl
      rw [hOld, Option.some.injEq] at hAt
      exact hNotOld hAt.symm

/- What an operation refers to. -/
def references (op : Operation) : List ValueId × List BlockId := (op.operands, op.successors)

namespace UsersKept

theorem of_empty (handles : Handles) : (emptyAfter handles).UsersKept := by
  constructor <;> simp [emptyAfter]

----
-- Changes without uses
----

section

variable (hKept : m.UsersKept)
include hKept

/-
  A change that leaves the operands and successors of all
  operations as they are, and adds values and blocks without
  users.
-/
theorem of_additions (hOps : ∀ k : Nat, m'.ops[k]?.map references = m.ops[k]?.map references)
    (hOpHandle : m.handles.op ≤ m'.handles.op) (hValueHandle : m.handles.value ≤ m'.handles.value)
    (hBlockHandle : m.handles.block ≤ m'.handles.block) (hValues :
      ∀ k info, m'.values[k]? = some info → k < m'.handles.value ∧
        ((∃ old, m.values[k]? = some old ∧ info.users = old.users) ∨
          m.handles.value ≤ k ∧ info.users = [])) (hBlocks : ∀ k info, m'.blocks[k]? = some info →
        k < m'.handles.block ∧ ((∃ old, m.blocks[k]? = some old ∧ info.users = old.users) ∨
          m.handles.block ≤ k ∧ info.users = [])) : m'.UsersKept := by
  have hPart : ∀ {γ : Type} (f : List ValueId × List BlockId → γ) (k : Nat),
        m'.ops[k]?.map (f ∘ references) = m.ops[k]?.map (f ∘ references) := by
    intro γ f k
    rw [← Option.map_map, ← Option.map_map, hOps]
  refine .of_tracked (fun k op hOp => ?_)
    (hKept.valuesTracked.of_additions (hPart Prod.fst) hValueHandle fun v => hValues v.index)
    (hKept.blocksTracked.of_additions (hPart Prod.snd) hBlockHandle fun b => hBlocks b.index)
  rcases exists_of_map_eq (hOps k).symm hOp with ⟨old, hOld, -⟩
  exact Nat.lt_of_lt_of_le (hKept.ops k old hOld).1 hOpHandle

/- A change of the maps of regions, places and attributes only. -/
theorem of_same (hOps : ∀ k : Nat, m'.ops[k]?.map references = m.ops[k]?.map references)
    (hValues : m'.values = m.values) (hBlocks : m'.blocks = m.blocks)
    (hHandles : m'.handles = m.handles) : m'.UsersKept := by
  refine hKept.of_additions hOps (by simp [hHandles])
    (by simp [hHandles]) (by simp [hHandles]) ?_ ?_
  · intro k info hInfo
    rw [hValues] at hInfo
    rw [hHandles]
    exact ⟨hKept.values k info hInfo, .inl ⟨info, hInfo, rfl⟩⟩
  · intro k info hInfo
    rw [hBlocks] at hInfo
    rw [hHandles]
    exact ⟨hKept.blocks k info hInfo, .inl ⟨info, hInfo, rfl⟩⟩

theorem elsewhere {handles : Handles} (hOp : m.handles.op ≤ handles.op)
    (hValue : m.handles.value ≤ handles.value) (hBlock : m.handles.block ≤ handles.block) :
    { m with handles := handles : Module }.UsersKept := by
  refine hKept.of_additions (fun _ => rfl) hOp hValue hBlock ?_ ?_
  · intro k info hInfo
    exact ⟨Nat.lt_of_lt_of_le (hKept.values k info hInfo) hValue, .inl ⟨info, hInfo, rfl⟩⟩
  · intro k info hInfo
    exact ⟨Nat.lt_of_lt_of_le (hKept.blocks k info hInfo) hBlock, .inl ⟨info, hInfo, rfl⟩⟩

/- A new value that nothing uses. -/
theorem newValue (hUsers : info.users = [])
    (hRun : Module.newValue info m = .ok v m') : m'.UsersKept := by
  cases hRun
  refine hKept.of_additions (fun _ => rfl) .refl (Nat.le_succ _) .refl ?_ ?_
  · exact fun k found => old_or_added ValueInfo.users hKept.values hUsers
  · intro k found hFound
    exact ⟨hKept.blocks k found hFound, .inl ⟨found, hFound, rfl⟩⟩

theorem newDetachedBlock (hRun : Module.newDetachedBlock r types m = .ok b m') :
    m'.UsersKept := by
  rcases newDetachedBlock_run r types m with ⟨values, hRun', hValues⟩
  cases hRun'.symm.trans hRun
  refine hKept.of_additions (fun _ => rfl) .refl
    (Nat.le_add_right _ _) (Nat.le_succ _) ?_ ?_
  · intro k info hInfo
    simp only [hValues k] at hInfo
    split at hInfo
    · rename_i hRange
      rcases Option.map_eq_some_iff.mp hInfo with ⟨t, -, rfl⟩
      exact ⟨hRange.2, .inr ⟨hRange.1, rfl⟩⟩
    · exact ⟨Nat.lt_add_right _ (hKept.values k info hInfo), .inl ⟨info, hInfo, rfl⟩⟩
  · exact fun k info => old_or_added BlockInfo.users hKept.blocks rfl

theorem placeBlock (hRun : Module.placeBlock b m = .ok () m') : m'.UsersKept := by
  rcases placeBlock_eq_ok_iff.mp hRun with ⟨info, region, -, -, -, rfl⟩
  exact hKept.of_same (fun _ => rfl) rfl rfl rfl

theorem addBlockArg (hRun : Module.addBlockArg b t m = .ok v m') : m'.UsersKept := by
  rcases addBlockArg_eq_ok_iff.mp hRun with ⟨info, -, -, rfl⟩
  refine hKept.of_additions (fun _ => rfl) .refl (Nat.le_succ _) .refl ?_ ?_
  · exact fun k found => old_or_added ValueInfo.users hKept.values rfl
  · intro k found hFound
    rcases entry_of_modify hFound with ⟨old, hOld, rfl | rfl⟩
    all_goals exact ⟨hKept.blocks k old hOld, .inl ⟨old, hOld, rfl⟩⟩

/- A change of an operation that keeps what it refers to. -/
theorem updateOp (hRun : Module.updateOp o f m = .ok () m')
    (hSame : ∀ op, references (f op) = references op) : m'.UsersKept := by
  rcases updateOp_eq_ok_iff.mp hRun with ⟨-, rfl⟩
  exact hKept.of_same (map_getElem?_modify hSame _ _) rfl rfl rfl

----
-- New operations
----

theorem newOp
    (hRun : Module.newOp kind operands types attrs count successors m =
        .ok o m') : m'.UsersKept := by
  rcases newOp_eq_ok hRun with
    ⟨rfl, hOperands, hSuccessors, values, blocks, regions, rfl, hValues, hBlocks, -⟩
  have hFresh : m.ops[m.handles.op]? = none := by
    cases hOp : m.ops[m.handles.op]? with
    | none => rfl
    | some op => exact absurd (hKept.ops _ op hOp).1 (Nat.lt_irrefl _)
  refine .of_tracked (fun k op hOp => ?_)
    (hKept.valuesTracked.insert (o := ⟨_⟩) hFresh hOperands (Nat.le_add_right _ _)
      fun v info hInfo => ?_)
    (hKept.blocksTracked.insert (o := ⟨_⟩) hFresh hSuccessors .refl
      fun b info hInfo => ?_)
  · rw [getElem?_insert_nat] at hOp
    split at hOp
    · rename_i hSame
      exact Nat.lt_succ_of_le (Nat.le_of_eq hSame.symm)
    · exact Nat.lt_succ_of_lt (hKept.ops k op hOp).1
  · simp only [hValues] at hInfo
    split at hInfo
    · rename_i hRange
      rcases Option.map_eq_some_iff.mp hInfo with ⟨t, -, rfl⟩
      exact ⟨hRange.2, .inr ⟨hRange.1, rfl⟩⟩
    · rcases Option.map_eq_some_iff.mp hInfo with ⟨old, hOld, rfl⟩
      refine ⟨Nat.lt_add_right _ (hKept.values _ old hOld), .inl ⟨old, hOld, fun u => ?_⟩⟩
      split <;> simp [mem_addUser, or_comm, *]
  · simp only [hBlocks] at hInfo
    rcases Option.map_eq_some_iff.mp hInfo with ⟨old, hOld, rfl⟩
    refine ⟨hKept.blocks _ old hOld, .inl ⟨old, hOld, fun u => ?_⟩⟩
    split <;> simp [mem_addUser, or_comm, *]

----
-- Changes of operands
----

theorem setOperand (hRun : Module.setOperand o i v m = .ok () m') : m'.UsersKept := by
  rcases setOperand_eq_ok hRun with ⟨op, old, values, hOp, hOld, ⟨new, hNew⟩, rfl, hValues⟩
  have hOldMember : old ∈ op.operands := List.mem_of_getElem? hOld
  have hNewMember : v ∈ op.operands.set i v := List.mem_set (List.getElem?_eq_some_iff.mp hOld).1 v
  have hChanged :=
    getElem?_modify_op hOp fun other => { other with operands := op.operands.set i v }
  have hRefers : ∀ u w, Refers Operation.operands _ u w ↔ _ := fun u w => refers_update hChanged
  refine .of_tracked (fun k other hOther => ?_) ⟨?_, ?_, ?_⟩
    (hKept.blocksTracked.of_additions (fun k => ?_) .refl fun b info hInfo =>
      ⟨hKept.blocks _ info hInfo, .inl ⟨info, hInfo, rfl⟩⟩)
  · rcases exists_modify_iff.mp ⟨other, hOther⟩ with ⟨before, hBefore⟩
    exact (hKept.ops k before hBefore).1
  · intro u w hNow
    rw [hRefers] at hNow
    split at hNow
    · rcases List.mem_or_eq_of_mem_set hNow with hBefore | rfl
      · exact (hKept.ops _ op hOp).2.1 w hBefore
      · exact hKept.values _ new hNew
    · exact hKept.valuesTracked.given u w hNow
  · intro w info hInfo
    simp only [hValues] at hInfo
    rcases Option.map_eq_some_iff.mp hInfo with ⟨before, hBefore, -⟩
    exact hKept.values _ before hBefore
  · intro w info hInfo u
    simp only [hValues] at hInfo
    rcases Option.map_eq_some_iff.mp hInfo with ⟨before, hBefore, rfl⟩
    have hUsed := hKept.valuesTracked.exact w before hBefore u
    have hIndex : ∀ x : ValueId, x.index = w.index ↔ w = x := fun x => by
      rw [ValueId.ext_iff, eq_comm]
    simp only [hRefers, hIndex]
    by_cases hUser : u = o
    · -- the operation itself: what it still uses decides
      have hOperand : u ∈ before.users ↔ w ∈ op.operands := by
        rw [hUsed, hUser, refers_iff hOp]
      rw [if_pos hUser]
      by_cases hIsNew : w = v
      · simp only [hIsNew, if_true, mem_addUser]
        exact iff_of_true (.inl hUser) hNewMember
      · simp only [hIsNew, if_false]
        by_cases hIsOld : w = old
        · subst hIsOld
          by_cases hStays : w ∈ op.operands.set i v
          · simp only [hStays, not_true, and_false, if_false]
            exact iff_of_true (hOperand.mpr hOldMember) trivial
          · simp only [hStays, not_false_iff, and_true, if_true, mem_dropUser]
            exact iff_of_false (fun hIn => hIn.2 hUser) not_false
        · simp only [hIsOld, false_and, if_false]
          rw [hOperand, mem_set_iff hOld hIsOld hIsNew]
    · have hOthers : u ∈ (if w = old ∧ old ∉ op.operands.set i v then
            dropUser before.users o else before.users) ↔ u ∈ before.users := by
        split
        · rw [mem_dropUser, and_iff_left hUser]
        · rfl
      rw [← hUsed]
      split
      · rw [mem_addUser, or_iff_right hUser, hOthers]
      · exact hOthers
  · rw [getElem?_modify_nat]
    split <;> cases m.ops[k]? <;> rfl

/- All operations have the other value in the place of one. -/
theorem redirects {old : ValueId} {ops : Std.TreeMap Nat Operation}
    {values : Std.TreeMap Nat ValueInfo} (hInfo : m.values[old.index]? = some info)
    (hRedirects : m.Redirects old new info ops values) (k : Nat) :
    ops[k]? = m.ops[k]?.map fun op =>
      { op with operands := op.operands.map (replaced old new) } := by
  rw [hRedirects.1]
  cases hOp : m.ops[k]? with
  | none => rfl
  | some op =>
    rw [Option.map_some, Option.map_some]
    split
    · rfl
    · -- who is not a user does not have the value
      rename_i hOther
      rw [hKept.valuesTracked.exact old info hInfo, refers_iff hOp] at hOther
      have hSame : op.operands.map (replaced old new) = op.operands := by
        refine (List.map_congr_left fun v hMember => if_neg ?_).trans (List.map_id _)
        rintro rfl
        exact hOther hMember
      rw [hSame]

theorem replaceAllUses (hRun : Module.replaceAllUses old new m = .ok () m') :
    m'.UsersKept := by
  by_cases hDistinct : old = new
  · rw [Module.replaceAllUses, if_pos hDistinct] at hRun
    cases hRun
    exact hKept
  rcases replaceAllUses_eq_ok hDistinct hRun with
    ⟨info, ops, values, hOld, hNew, rfl, hOps, hCleared, hValues⟩
  have hUsers := hKept.valuesTracked.exact old info hOld
  have hReplaced := hKept.redirects hOld ⟨hOps, hCleared, hValues⟩
  have hRefers : ∀ u v, Refers Operation.operands ops u v ↔
        v = new ∧ Refers Operation.operands m.ops u old ∨
          v ≠ old ∧ Refers Operation.operands m.ops u v := by
    intro u v
    simp only [Refers, hReplaced]
    cases m.ops[u.index]? <;> simp [mem_map_replaced]
  refine .of_tracked (fun k op hOp => ?_) ⟨?_, ?_, ?_⟩
    (hKept.blocksTracked.of_additions (fun k => ?_) .refl fun b info hInfo =>
      ⟨hKept.blocks _ info hInfo, .inl ⟨info, hInfo, rfl⟩⟩)
  · simp only [hReplaced k] at hOp
    rcases Option.map_eq_some_iff.mp hOp with ⟨before, hBefore, -⟩
    exact (hKept.ops k before hBefore).1
  · intro u v hNow
    rcases (hRefers u v).mp hNow with ⟨rfl, hHad⟩ | ⟨-, hBefore⟩
    · rcases hNew (List.ne_nil_of_mem ((hUsers u).mpr hHad)) with ⟨other, hOther⟩
      exact hKept.values _ other hOther
    · exact hKept.valuesTracked.given u v hBefore
  · intro v found hFound
    by_cases hSame : v.index = old.index
    · exact hSame ▸ hKept.values _ info hOld
    · simp only [hValues _ hSame] at hFound
      rcases Option.map_eq_some_iff.mp hFound with ⟨other, hOther, -⟩
      exact hKept.values _ other hOther
  · intro v found hFound u
    rw [hRefers]
    by_cases hSame : v = old
    · subst hSame
      simp only [hCleared, Option.some.injEq] at hFound
      subst hFound
      simp [hDistinct]
    · simp only [hValues _ fun hEq => hSame (ValueId.ext hEq)] at hFound
      rcases Option.map_eq_some_iff.mp hFound with ⟨other, hBefore, rfl⟩
      have hUsed := hKept.valuesTracked.exact v other hBefore u
      by_cases hIsNew : v = new
      · subst hIsNew
        rw [if_pos rfl, mem_foldl_addUser, hUsers, hUsed]
        simp [hSame]
      · rw [if_neg fun hEq => hIsNew (ValueId.ext hEq), hUsed]
        simp [hSame, hIsNew]
  · rw [hReplaced k, Option.map_map]
    rfl

----
-- Removal
----

theorem removePlaceholder (hRun : Module.removePlaceholder v m = .ok () m') : m'.UsersKept := by
  rcases removePlaceholder_eq_ok_iff.mp hRun with ⟨info, -, -, -, rfl⟩
  refine hKept.of_additions (fun _ => rfl) .refl .refl .refl ?_ ?_
  · intro k found hFound
    have hOld := ((Erases.of_erase _ _).some_iff.mp hFound).1
    exact ⟨hKept.values k found hOld, .inl ⟨found, hOld, rfl⟩⟩
  · exact fun k found hFound => ⟨hKept.blocks k found hFound, .inl ⟨found, hFound, rfl⟩⟩

theorem replaceWithConstant {value : Attr}
    (hRun : Module.replaceWithConstant o value m = .ok () m') : m'.UsersKept := by
  rcases replaceWithConstant_eq_ok hRun with ⟨op, m₁, hOp, -, -, hDrop, rfl⟩
  rcases dropUses_eq_ok hDrop with ⟨_, values, blocks, -, rfl, hValues, hBlocks⟩
  have hChanged := getElem?_modify_op hOp fun op =>
      { op with
        kind := .constant
        operands := []
        successors := []
        attrs := .ofList [("value", value)] }
  refine .of_tracked (fun k found hFound => ?_)
    (hKept.valuesTracked.of_dropped (· = o) (fun u v => ?_) fun v found hFound => ?_)
    (hKept.blocksTracked.of_dropped (· = o) (fun u b => ?_) fun b found hFound => ?_)
  · rcases exists_modify_iff.mp ⟨found, hFound⟩ with ⟨before, hBefore⟩
    exact (hKept.ops k before hBefore).1
  · rw [refers_update hChanged]
    split <;> simp [*]
  · simp only [hValues] at hFound
    rcases Option.map_eq_some_iff.mp hFound with ⟨old, hOld, rfl⟩
    exact ⟨old, hOld, fun u => by simp [imp_iff_not_or, ← uses_iff]⟩
  · rw [refers_update hChanged]
    split <;> simp [*]
  · simp only [hBlocks] at hFound
    rcases Option.map_eq_some_iff.mp hFound with ⟨old, hOld, rfl⟩
    exact ⟨old, hOld, fun u => by simp [imp_iff_not_or, ← branchesTo_iff]⟩

/- Taking an operation out of its place does not touch uses. -/
theorem unplace (hRun : Module.unplace o m = .ok () m') : m'.UsersKept := by
  have hUnplaces := unplace_unplaces hRun
  exact hKept.of_same (fun _ => by rw [hUnplaces.ops]) hUnplaces.values hUnplaces.blocks
    hUnplaces.handles

theorem removeOp (hRun : Module.removeOp o m = .ok op m') : m'.UsersKept := by
  rcases removeOp_eq_ok hRun with ⟨m₁, nested, m₂, hUnplace, -, hDrop, hWithout⟩
  rcases dropAllUses_eq_ok hDrop with ⟨values, blocks, rfl, hValues, hBlocks⟩
  have hKept₁ := hKept.unplace hUnplace
  have hRefers : ∀ {ι : Type} (refs : Operation → List ι) u x, Refers refs m'.ops u x ↔
        Refers refs m₁.ops u x ∧ u ∉ nested := by
    intro ι refs u x
    have hLeft : ∀ found, m'.ops[u.index]? = some found ↔
        m₁.ops[u.index]? = some found ∧ u ∉ nested := fun _ => hWithout.ops.some_iff
    simp only [Refers, hLeft]
    exact ⟨fun ⟨f, ⟨hOp, hOut⟩, hIn⟩ => ⟨⟨f, hOp, hIn⟩, hOut⟩,
      fun ⟨⟨f, hOp, hIn⟩, hOut⟩ => ⟨f, ⟨hOp, hOut⟩, hIn⟩⟩
  refine .of_tracked (fun k found hFound => ?_) ?_ ?_
  · rw [hWithout.handles]
    exact (hKept₁.ops k found (hWithout.ops.some_iff.mp hFound).1).1
  · rw [ValuesTracked, hWithout.handles]
    refine hKept₁.valuesTracked.of_dropped (· ∈ nested) (hRefers _) fun v found hFound => ?_
    have hBefore := (hWithout.values.some_iff.mp hFound).1
    simp only [hValues] at hBefore
    rcases Option.map_eq_some_iff.mp hBefore with ⟨old, hOld, rfl⟩
    exact ⟨old, hOld, fun u => by simp [imp_iff_not_or, ← uses_iff]⟩
  · rw [BlocksTracked, hWithout.handles]
    refine hKept₁.blocksTracked.of_dropped (· ∈ nested) (hRefers _) fun b found hFound => ?_
    have hBefore := (hWithout.blocks.some_iff.mp hFound).1
    simp only [hBlocks] at hBefore
    rcases Option.map_eq_some_iff.mp hBefore with ⟨old, hOld, rfl⟩
    exact ⟨old, hOld, fun u => by simp [imp_iff_not_or, ← branchesTo_iff]⟩

----
-- Runs
----

/- Every change that returns keeps the lists of users exact. -/
theorem change (c : Change) (hRun : c.run m = .ok () m') : m'.UsersKept := by
  cases c with
  | newOp =>
    rcases discard_eq_ok hRun with ⟨o, hNew⟩
    exact hKept.newOp hNew
  | newPlaceholder =>
    rcases discard_eq_ok hRun with ⟨v, hNew⟩
    exact hKept.newValue rfl hNew
  | newBlock =>
    rcases newBlock_eq_ok hRun with ⟨b, m₁, hDetached, hPlace⟩
    exact (hKept.newDetachedBlock hDetached).placeBlock hPlace
  | newDetachedBlock =>
    rcases discard_eq_ok hRun with ⟨b, hNew⟩
    exact hKept.newDetachedBlock hNew
  | placeBlock => exact hKept.placeBlock hRun
  | addBlockArg =>
    rcases discard_eq_ok hRun with ⟨v, hNew⟩
    exact hKept.addBlockArg hNew
  | appendOp =>
    rcases appendOp_eq_ok_iff.mp hRun with ⟨info, region, os, -, -, -, -, -, rfl⟩
    exact hKept.of_same (fun _ => rfl) rfl rfl rfl
  | pushTop =>
    rcases pushTop_eq_ok_iff.mp hRun with ⟨-, rfl⟩
    exact hKept.of_same (fun _ => rfl) rfl rfl rfl
  | setAttr | setSpan => exact hKept.updateOp hRun fun _ => rfl
  | setOperand => exact hKept.setOperand hRun
  | replaceAllUses => exact hKept.replaceAllUses hRun
  | removePlaceholder => exact hKept.removePlaceholder hRun
  | replaceWithConstant => exact hKept.replaceWithConstant hRun
  | removeOp =>
    rcases discard_eq_ok hRun with ⟨op, hRemove⟩
    exact hKept.removeOp hRemove

end

end UsersKept

theorem Reached.usersKept (hReached : m.Reached) : m.UsersKept := by
  induction hReached with
  | empty handles => exact .of_empty handles
  | change c _ hRun ih => exact ih.change c hRun
  | elsewhere _ hOp hValue hBlock _ ih => exact ih.elsewhere hOp hValue hBlock

/-
  In every module that can be reached, an operation is a user of
  a value if and only if the value is one of its operands, and
  of a block if and only if the block is one of its successors.
  Nothing that has been removed is listed as a user.
-/
theorem Reached.users_exact (hReached : m.Reached) : (∀ (o : OpId) (op : Operation) (v : ValueId)
        (info : ValueInfo), m.op o = .ok op → m.value v = .ok info →
      (o ∈ info.users ↔ v ∈ op.operands)) ∧
    (∀ (o : OpId) (op : Operation) (b : BlockId) (info : BlockInfo), m.op o = .ok op →
      m.block b = .ok info → (o ∈ info.users ↔ b ∈ op.successors)) ∧
    (∀ (v : ValueId) (info : ValueInfo), m.value v = .ok info →
      ∀ o ∈ info.users, m.containsOp o = true) ∧
    ∀ (b : BlockId) (info : BlockInfo), m.block b = .ok info →
      ∀ o ∈ info.users, m.containsOp o = true := by
  have hKept := hReached.usersKept
  refine ⟨?_, ?_, ?_, ?_⟩
  · intro o op v info hOp hInfo
    rw [op_eq_ok_iff] at hOp
    rw [value_eq_ok_iff] at hInfo
    rw [hKept.valueUsers _ info hInfo, uses_iff, refers_iff hOp]
  · intro o op b info hOp hInfo
    rw [op_eq_ok_iff] at hOp
    rw [block_eq_ok_iff] at hInfo
    rw [hKept.blockUsers _ info hInfo, branchesTo_iff, refers_iff hOp]
  · intro v info hInfo o hUser
    rw [value_eq_ok_iff] at hInfo
    rw [hKept.valueUsers _ info hInfo, uses_iff] at hUser
    rcases hUser with ⟨op, hOp, -⟩
    exact contains_of_getElem? hOp
  · intro b info hInfo o hUser
    rw [block_eq_ok_iff] at hInfo
    rw [hKept.blockUsers _ info hInfo, branchesTo_iff] at hUser
    rcases hUser with ⟨op, hOp, -⟩
    exact contains_of_getElem? hOp

/-
  An operation that has a value twice as an operand stays a user
  of it when one of the two is replaced.
-/
theorem Reached.users_exact_repeated : ∃ m op info, (emptyAfter {}).after
        [.newOp .func [] [] {} 1 [], .newBlock ⟨0⟩ [.index, .index],
          .newOp .addI [⟨0⟩, ⟨0⟩] [.index] {} 0 [], .appendOp ⟨0⟩ ⟨1⟩,
          .setOperand ⟨1⟩ 0 ⟨1⟩] = some m ∧ m.Reached ∧ m.op ⟨1⟩ = .ok op ∧
      op.operands = [⟨1⟩, ⟨0⟩] ∧ m.value ⟨0⟩ = .ok info ∧ ⟨1⟩ ∈ info.users := by
  have hFound : ∃ m ∈ (emptyAfter {}).after
        [.newOp .func [] [] {} 1 [], .newBlock ⟨0⟩ [.index, .index],
          .newOp .addI [⟨0⟩, ⟨0⟩] [.index] {} 0 [], .appendOp ⟨0⟩ ⟨1⟩, .setOperand ⟨1⟩ 0 ⟨1⟩],
      (∃ op ∈ m.ops[1]?, op.operands = [⟨1⟩, ⟨0⟩]) ∧
        ∃ info ∈ m.values[0]?, info.type = .index := by decide +kernel
  rcases hFound with ⟨m, hRun, ⟨op, hOp, hTwo⟩, info, hInfo, -⟩
  have hReached : m.Reached := (Reached.empty {}).after hRun
  have hOp' : m.op ⟨1⟩ = .ok op := op_eq_ok_iff.mpr hOp
  have hInfo' : m.value ⟨0⟩ = .ok info := value_eq_ok_iff.mpr hInfo
  refine ⟨m, op, info, hRun, hReached, hOp', hTwo, hInfo', ?_⟩
  exact (hReached.users_exact.1 _ op _ info hOp' hInfo').mpr (by simp [hTwo])

/-
  In every module that can be reached, a value takes the place of
  another one in all operations, whether they have a place or
  not, and nothing else of them changes. Nothing uses the other
  value then, and its users are added to those of the value.
-/
theorem Reached.replaceAllUses_everywhere {old new : ValueId} {info other : ValueInfo}
    (hReached : m.Reached) (hOld : m.value old = .ok info) (hNew : m.value new = .ok other) :
    ∃ m', replaceAllUses old new m = .ok () m' ∧
      (∀ o, m'.op o = (m.op o).map fun op =>
        { op with operands := op.operands.map (replaced old new) }) ∧
      (m'.blocks = m.blocks ∧ m'.regions = m.regions ∧ m'.places = m.places ∧ m'.top = m.top ∧
        m'.handles = m.handles) ∧
      (∀ v, v ≠ old → v ≠ new → m'.value v = m.value v) ∧ (old = new → m' = m) ∧
      (old ≠ new → ∃ users, m'.value old = .ok { info with users := [] } ∧
        m'.value new = .ok { other with users := users } ∧
        ∀ o, o ∈ users ↔ o ∈ info.users ∨ o ∈ other.users) := by
  have hKept := hReached.usersKept
  rw [value_eq_ok_iff] at hOld hNew
  by_cases hDistinct : old = new
  · subst hDistinct
    have hSame : replaced old old = id := by
      funext v
      simp +contextual [replaced, eq_comm]
    refine ⟨m, ?_, fun o => ?_, by simp, fun _ _ _ => rfl, fun _ => rfl, nofun⟩
    · rw [replaceAllUses, if_pos rfl]
      rfl
    · simp only [hSame, List.map_id_fun, id]
      cases m.op o <;> rfl
  have hUsers : ∀ o ∈ info.users, ∃ op, m.ops[o.index]? = some op := fun o hUser =>
    ((hKept.valuesTracked.exact old info hOld o).mp hUser).imp fun _ h => h.1
  rcases replaceAllUses_run hDistinct hOld hUsers ⟨other, hNew⟩ with
    ⟨ops, values, hRun, hRedirects⟩
  refine ⟨_, hRun, fun o => ?_, by simp, fun v hNotOld hNotNew => ?_,
    fun hSame => absurd hSame hDistinct, fun _ => ⟨info.users.foldl addUser other.users, ?_, ?_, ?_⟩⟩
  · simp only [Module.op, hKept.redirects hOld hRedirects]
    cases m.ops[o.index]? <;> rfl
  · simp only [Module.value, hRedirects.2.2 _ fun hSame => hNotOld (ValueId.ext hSame),
      if_neg fun hSame => hNotNew (ValueId.ext hSame)]
    cases m.values[v.index]? <;> rfl
  · exact value_eq_ok_iff.mpr hRedirects.2.1
  · refine value_eq_ok_iff.mpr ?_
    simp only [hRedirects.2.2 _ fun hSame => hDistinct (ValueId.ext hSame.symm), hNew, if_true,
      Option.map_some]
  · exact fun o => mem_foldl_addUser

/-
  The first argument of a function gives way to the second one
  in an operation that has it twice, and that has no place.
-/
theorem Reached.replaceAllUses_everywhere_repeated : ∃ m m', (emptyAfter {}).after
        [.newOp .func [] [] {} 1 [], .newBlock ⟨0⟩ [.index, .index],
          .newOp .addI [⟨0⟩, ⟨0⟩] [.index] {} 0 []] = some m ∧ m.Reached ∧
      replaceAllUses ⟨0⟩ ⟨1⟩ m = .ok () m' ∧
      (m'.op ⟨1⟩).map Operation.operands = .ok [⟨1⟩, ⟨1⟩] ∧
      (m'.value ⟨0⟩).map ValueInfo.users = .ok [] := by
  have hFound : ∃ m ∈ (emptyAfter {}).after
        [.newOp .func [] [] {} 1 [], .newBlock ⟨0⟩ [.index, .index],
          .newOp .addI [⟨0⟩, ⟨0⟩] [.index] {} 0 []],
      (∃ op ∈ m.ops[1]?, op.operands = [⟨0⟩, ⟨0⟩]) ∧
        (∃ old ∈ m.values[0]?, old.type = .index) ∧ ∃ new ∈ m.values[1]?, new.type = .index := by
    decide +kernel
  rcases hFound with ⟨m, hRun, ⟨op, hOp, hTwice⟩, ⟨info, hOld, -⟩, other, hNew, -⟩
  have hReached : m.Reached := (Reached.empty {}).after hRun
  rcases hReached.replaceAllUses_everywhere (value_eq_ok_iff.mpr hOld)
    (value_eq_ok_iff.mpr hNew) with ⟨m', hReplace, hOps, -, -, -, hUsers⟩
  rcases hUsers (by decide) with ⟨users, hCleared, -⟩
  refine ⟨m, m', hRun, hReached, hReplace, ?_, ?_⟩
  · rw [hOps, op_eq_ok_iff.mpr hOp]
    simp [Except.map, hTwice, replaced]
  · rw [hCleared]
    rfl

end Module

end FortranIR
