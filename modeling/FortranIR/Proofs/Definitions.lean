import FortranIR.Proofs.Owners

/-
  This file proves that the lists of results and arguments agree
  with the values in them: the results of an operation exist and
  are defined by that operation, each at its own position, and
  so are the arguments of a block.

  Main declarations:
    * `Module.DefinedAs`
    * `Module.Reached.definitionsKept`
-/

namespace FortranIR

variable {op : Operation}

namespace Module

variable {m m' : Module}

/- A value exists, and has a source. -/
def DefinedAs (m : Module) (d : ValueDef) (v : ValueId) : Prop :=
  m.values[v.index]?.map ValueInfo.defined = some d

/-
  Results and arguments are defined where they are listed, and
  arguments are listed where they are defined.
-/
structure DefinitionsKept (m : Module) : Prop where
  results : ∀ (k : Nat) (op : Operation), m.ops[k]? = some op → ∀ i v, op.results[i]? = some v →
        m.DefinedAs (.result ⟨k⟩ i) v
  args : ∀ (k : Nat) (info : BlockInfo), m.blocks[k]? = some info →
      ∀ i v, info.args[i]? = some v → m.DefinedAs (.arg ⟨k⟩ i) v
  held : ∀ b i v, m.DefinedAs (.arg b i) v → ∃ info : BlockInfo, m.blocks[b.index]? = some info ∧
        info.args[i]? = some v

theorem DefinedAs.unique (hThis : m.DefinedAs d v) (hThat : m.DefinedAs d' v) :
    d = d' := Option.some.inj (hThis.symm.trans hThat)

namespace DefinitionsKept

theorem of_empty (handles : Handles) : (emptyAfter handles).DefinitionsKept := by
  constructor <;> simp [emptyAfter, DefinedAs]

----
-- Sources
----

section

variable (hKept : m.DefinitionsKept)
include hKept

theorem result_source (hOp : m.ops[k]? = some op)
    (hResult : v ∈ op.results) (hInfo : m.values[v.index]? = some info) :
    ∃ i, info.defined = .result ⟨k⟩ i := by
  rcases List.getElem?_of_mem hResult with ⟨i, hAt⟩
  have hDefined := hKept.results k op hOp i v hAt
  rw [DefinedAs, hInfo] at hDefined
  exact ⟨i, Option.some.inj hDefined⟩

theorem arg_source {block : BlockInfo} (hBlock : m.blocks[k]? = some block) (hArg : v ∈ block.args)
    (hInfo : m.values[v.index]? = some info) : ∃ i, info.defined = .arg ⟨k⟩ i := by
  rcases List.getElem?_of_mem hArg with ⟨i, hAt⟩
  have hDefined := hKept.args k block hBlock i v hAt
  rw [DefinedAs, hInfo] at hDefined
  exact ⟨i, Option.some.inj hDefined⟩

----
-- Changes
----

/- A change that leaves sources, results and arguments alone. -/
theorem of_same (hValues :
      ∀ k : Nat, m'.values[k]?.map ValueInfo.defined = m.values[k]?.map ValueInfo.defined)
    (hOps : ∀ k : Nat, m'.ops[k]?.map owned = m.ops[k]?.map owned)
    (hBlocks : ∀ k : Nat, m'.blocks[k]?.map homeAndArgs = m.blocks[k]?.map homeAndArgs) :
    m'.DefinitionsKept where
  results k op hOp i v hAt := by
    rcases exists_of_map_eq (hOps k).symm hOp with ⟨old, hOld, hOwned⟩
    have hResults : old.results = op.results := congrArg Prod.fst hOwned
    rw [DefinedAs, hValues]
    exact hKept.results k old hOld i v (hResults ▸ hAt)
  args k info hInfo i v hAt := by
    rcases exists_of_map_eq (hBlocks k).symm hInfo with ⟨old, hOld, hHeld⟩
    have hArgs : old.args = info.args := congrArg Prod.snd hHeld
    rw [DefinedAs, hValues]
    exact hKept.args k old hOld i v (hArgs ▸ hAt)
  held b i v hDefined := by
    rw [DefinedAs, hValues] at hDefined
    rcases hKept.held b i v hDefined with ⟨old, hOld, hAt⟩
    rcases exists_of_map_eq (hBlocks b.index) hOld with ⟨info, hInfo, hHeld⟩
    have hArgs : info.args = old.args := congrArg Prod.snd hHeld
    exact ⟨info, hInfo, hArgs ▸ hAt⟩

theorem of_sameOwners (hSame : m.SameOwners m') : m'.DefinitionsKept :=
  hKept.of_same hSame.values hSame.ops hSame.blocks

/-
  A change that adds values: what is listed in addition is
  defined there, and what is defined in addition is listed.
-/
theorem of_additions (hValues : ∀ d v, m.DefinedAs d v → m'.DefinedAs d v)
    (hOps : ∀ (k : Nat) (op : Operation), m'.ops[k]? = some op → m.ops[k]? = some op ∨
        ∀ i v, op.results[i]? = some v → m'.DefinedAs (.result ⟨k⟩ i) v)
    (hBlocks : ∀ (k : Nat) (info : BlockInfo), m'.blocks[k]? = some info →
        ∀ i v, info.args[i]? = some v → (∃ old : BlockInfo, m.blocks[k]? = some old ∧
            old.args[i]? = some v) ∨ m'.DefinedAs (.arg ⟨k⟩ i) v)
    (hStay : ∀ (k : Nat) (info : BlockInfo), m.blocks[k]? = some info →
        ∃ new : BlockInfo, m'.blocks[k]? = some new ∧
          ∀ (i : Nat) (v : ValueId), info.args[i]? = some v → new.args[i]? = some v)
    (hHeld : ∀ b i v, m'.DefinedAs (.arg b i) v → m.DefinedAs (.arg b i) v ∨
        ∃ info : BlockInfo, m'.blocks[b.index]? = some info ∧ info.args[i]? = some v) :
    m'.DefinitionsKept where
  results k op hOp i v hAt := by
    rcases hOps k op hOp with hOld | hNew
    · exact hValues _ v (hKept.results k op hOld i v hAt)
    · exact hNew i v hAt
  args k info hInfo i v hAt := by
    rcases hBlocks k info hInfo i v hAt with ⟨old, hOld, hAt'⟩ | hNew
    · exact hValues _ v (hKept.args k old hOld i v hAt')
    · exact hNew
  held b i v hDefined := by
    rcases hHeld b i v hDefined with hBefore | hNew
    · rcases hKept.held b i v hBefore with ⟨old, hOld, hAt⟩
      rcases hStay _ old hOld with ⟨info, hInfo, hArgs⟩
      exact ⟨info, hInfo, hArgs i v hAt⟩
    · exact hNew

end

/- Values that exist have handles that are not given out again. -/
theorem definedAs_below (hUsers : m.UsersKept) (hDefined : m.DefinedAs d v) :
    v.index < m.handles.value := by
  rcases Option.map_eq_some_iff.mp hDefined with ⟨info, hInfo, -⟩
  exact hUsers.values _ info hInfo

section

variable (hKept : m.DefinitionsKept)
include hKept

section

variable (hUsers : m.UsersKept)
include hUsers

theorem newOp (hRun : Module.newOp kind operands types attrs count successors m = .ok o m') :
    m'.DefinitionsKept := by
  rcases newOp_eq_ok hRun with
    ⟨rfl, -, -, values, blocks, regions, rfl, hValues, hBlocks, -⟩
  -- values outside the new ones keep their sources
  have hOutside : ∀ k : Nat, ¬ (m.handles.value ≤ k ∧ k < m.handles.value + types.length) →
        values[k]?.map ValueInfo.defined = m.values[k]?.map ValueInfo.defined := by
    intro k hOld
    rw [hValues k, if_neg hOld, Option.map_map]
    split <;> rfl
  have hArgs : ∀ k : Nat, blocks[k]?.map BlockInfo.args = m.blocks[k]?.map BlockInfo.args := by
    intro k
    rw [hBlocks k, Option.map_map]
    split <;> rfl
  refine hKept.of_additions ?_ ?_ ?_ ?_ ?_
  · intro d v hDefined
    have hBelow := definedAs_below hUsers hDefined
    exact (hOutside _ (by omega)).trans hDefined
  · intro k op hOp
    rw [getElem?_insert_nat] at hOp
    split at hOp
    · rename_i hSame
      cases hOp
      subst hSame
      refine .inr fun i v hAt => ?_
      rcases getElem?_valueIds.mp hAt with ⟨hBelow, hIndex⟩
      rw [DefinedAs, hValues, if_pos (by omega), hIndex,
        Nat.add_sub_cancel_left, List.getElem?_eq_getElem hBelow]
      rfl
    · exact .inl hOp
  · intro k info hInfo i v hAt
    rcases exists_of_map_eq (hArgs k).symm hInfo with ⟨old, hOld, hArgs⟩
    exact .inl ⟨old, hOld, hArgs ▸ hAt⟩
  · intro k info hInfo
    rcases exists_of_map_eq (hArgs k) hInfo with ⟨new, hNew, hArgs⟩
    exact ⟨new, hNew, fun i v hAt => hArgs ▸ hAt⟩
  · intro b i v hDefined
    by_cases hNew : m.handles.value ≤ v.index ∧ v.index < m.handles.value + types.length
    · rw [DefinedAs, hValues, if_pos hNew, Option.map_map, Option.map_eq_some_iff] at hDefined
      rcases hDefined with ⟨t, -, hResult⟩
      cases hResult
    · exact .inl ((hOutside _ hNew).symm.trans hDefined)

/- A new value that is not an argument. -/
theorem newPlaceholder (hRun : Module.newPlaceholder t m = .ok v m') :
    m'.DefinitionsKept := by
  cases hRun
  refine hKept.of_additions ?_ (fun k op hOp => .inl hOp)
    (fun k info hInfo i v hAt => .inl ⟨info, hInfo, hAt⟩)
    (fun k info hInfo => ⟨info, hInfo, fun i v hAt => hAt⟩) ?_
  · intro d v hDefined
    have hBelow := definedAs_below hUsers hDefined
    rw [DefinedAs, getElem?_insert_nat, if_neg (Nat.ne_of_gt hBelow)]
    exact hDefined
  · intro b i v hDefined
    rw [DefinedAs, getElem?_insert_nat] at hDefined
    split at hDefined
    · cases hDefined
    · exact .inl hDefined

theorem newDetachedBlock
    (hRun : Module.newDetachedBlock r types m = .ok b m') : m'.DefinitionsKept := by
  rcases newDetachedBlock_run r types m with ⟨values, hRun', hValues⟩
  cases hRun'.symm.trans hRun
  refine hKept.of_additions ?_ (fun k op hOp => .inl hOp) ?_ ?_ ?_
  · intro d v hDefined
    have hBelow := definedAs_below hUsers hDefined
    rw [DefinedAs, hValues, if_neg (by omega)]
    exact hDefined
  · intro k info hInfo i v hAt
    rw [getElem?_insert_nat] at hInfo
    split at hInfo
    · rename_i hSame
      cases hInfo
      subst hSame
      rcases getElem?_valueIds.mp hAt with ⟨hBelow, hIndex⟩
      refine .inr ?_
      rw [DefinedAs, hValues, if_pos (by omega), hIndex,
        Nat.add_sub_cancel_left, List.getElem?_eq_getElem hBelow]
      rfl
    · exact .inl ⟨info, hInfo, hAt⟩
  · intro k info hInfo
    refine ⟨info, ?_, fun i v hAt => hAt⟩
    rw [getElem?_insert_nat, if_neg (Nat.ne_of_gt (hUsers.blocks k info hInfo))]
    exact hInfo
  · intro b i v hDefined
    by_cases hNew : m.handles.value ≤ v.index ∧ v.index < m.handles.value + types.length
    · rw [DefinedAs, hValues, if_pos hNew, Option.map_map, Option.map_eq_some_iff] at hDefined
      rcases hDefined with ⟨t, -, hArg⟩
      cases hArg
      refine .inr ⟨_, by rw [getElem?_insert_nat, if_pos rfl], ?_⟩
      exact getElem?_valueIds.mpr ⟨by omega, by omega⟩
    · rw [DefinedAs, hValues, if_neg hNew] at hDefined
      exact .inl hDefined

theorem addBlockArg (hRun : Module.addBlockArg b t m = .ok v m') :
    m'.DefinitionsKept := by
  rcases addBlockArg_eq_ok_iff.mp hRun with ⟨info, hInfo, -, rfl⟩
  refine hKept.of_additions ?_ (fun k op hOp => .inl hOp) ?_ ?_ ?_
  · intro d w hDefined
    have hBelow := definedAs_below hUsers hDefined
    rw [DefinedAs, getElem?_insert_nat, if_neg (Nat.ne_of_gt hBelow)]
    exact hDefined
  · intro k found hFound i w hAt
    rw [getElem?_modify_nat] at hFound
    split at hFound
    · rename_i hSame
      subst hSame
      rw [hInfo, Option.map_some, Option.some.injEq] at hFound
      subst hFound
      rw [List.getElem?_append] at hAt
      split at hAt
      · exact .inl ⟨info, hInfo, hAt⟩
      · rw [List.getElem?_singleton] at hAt
        split at hAt
        · cases hAt
          refine .inr ?_
          rw [DefinedAs, getElem?_insert_nat, if_pos rfl]
          have hLast : i = info.args.length := by omega
          rw [hLast]
          rfl
        · cases hAt
    · exact .inl ⟨found, hFound, hAt⟩
  · intro k found hFound
    rw [getElem?_modify_nat, hFound]
    split
    · refine ⟨_, rfl, fun i w hAt => ?_⟩
      rw [List.getElem?_append_left (List.getElem?_eq_some_iff.mp hAt).1]
      exact hAt
    · exact ⟨found, rfl, fun i w hAt => hAt⟩
  · intro c i w hDefined
    rw [DefinedAs, getElem?_insert_nat] at hDefined
    split at hDefined
    · rename_i hSame
      cases hDefined
      refine .inr ⟨_, by
        rw [getElem?_modify_nat, if_pos rfl, hInfo, Option.map_some], ?_⟩
      rw [List.getElem?_append_right .refl, Nat.sub_self,
        List.getElem?_cons_zero, Option.some.injEq]
      exact ValueId.ext hSame
    · exact .inl hDefined

/- Values are lost with the operation or block that lists them. -/
theorem removeOp (hOwners : m.OwnersKept)
    (hRun : Module.removeOp o m = .ok op m') : m'.DefinitionsKept := by
  rcases removeOp_cuts hUsers hOwners hRun with ⟨gone, hCuts⟩
  have hBefore : ∀ {d v}, m'.DefinedAs d v → m.DefinedAs d v ∧ ¬ m.OwnsValue (· ∈ gone) v := by
    intro d v hDefined
    rcases Option.map_eq_some_iff.mp hDefined with ⟨info', hInfo', hD⟩
    rcases (hCuts.values _ info').mp hInfo' with ⟨info, hInfo, hLeft, rfl⟩
    exact ⟨Option.map_eq_some_iff.mpr ⟨info, hInfo, hD⟩, hLeft⟩
  have hAfter : ∀ {d v}, m.DefinedAs d v → ¬ m.OwnsValue (· ∈ gone) v → m'.DefinedAs d v := by
    intro d v hDefined hLeft
    rcases Option.map_eq_some_iff.mp hDefined with ⟨info, hInfo, hD⟩
    exact Option.map_eq_some_iff.mpr ⟨_, (hCuts.values _ _).mpr ⟨info, hInfo, hLeft, rfl⟩, hD⟩
  refine ⟨?_, ?_, ?_⟩
  · intro k op hOp i v hAt
    rcases hCuts.ops.some_iff.mp hOp with ⟨hOld, hLeft⟩
    have hHere := hKept.results k op hOld i v hAt
    refine hAfter hHere ?_
    rintro (⟨o, other, hGone, hOther, hIn⟩ | ⟨b, info, -, hInfo, hIn⟩)
    · rcases List.getElem?_of_mem hIn with ⟨j, hAt'⟩
      cases hHere.unique (hKept.results _ other hOther j v hAt')
      exact hLeft hGone
    · rcases List.getElem?_of_mem hIn with ⟨j, hAt'⟩
      cases hHere.unique (hKept.args _ info hInfo j v hAt')
  · intro k info' hInfo' i v hAt
    rcases (hCuts.blocks k info').mp hInfo' with ⟨info, hInfo, hLeft, rfl⟩
    have hHere := hKept.args k info hInfo i v hAt
    refine hAfter hHere ?_
    rintro (⟨o, other, -, hOther, hIn⟩ | ⟨b, found, hOwns, hFound, hIn⟩)
    · rcases List.getElem?_of_mem hIn with ⟨j, hAt'⟩
      cases hHere.unique (hKept.results _ other hOther j v hAt')
    · rcases List.getElem?_of_mem hIn with ⟨j, hAt'⟩
      cases hHere.unique (hKept.args _ found hFound j v hAt')
      exact hLeft hOwns
  · intro b i v hDefined'
    rcases hBefore hDefined' with ⟨hDefined, hLeft⟩
    rcases hKept.held b i v hDefined with ⟨info, hInfo, hAt⟩
    refine ⟨_, (hCuts.blocks _ _).mpr ⟨info, hInfo, fun hOwns => hLeft (.inr ?_), rfl⟩, hAt⟩
    exact ⟨b, info, hOwns, hInfo, List.mem_of_getElem? hAt⟩

end

/- A placeholder is in no list. -/
theorem removePlaceholder (hRun : Module.removePlaceholder v m = .ok () m') :
    m'.DefinitionsKept := by
  rcases removePlaceholder_eq_ok_iff.mp hRun with ⟨info, hInfo, hKind, -, rfl⟩
  have hAfter : ∀ {d w}, d ≠ .placeholder → m.DefinedAs d w →
        ((m.values.erase v.index)[w.index]?).map ValueInfo.defined = some d := by
    intro d w hOther hDefined
    rw [getElem?_erase_nat, if_neg]
    · exact hDefined
    · intro hSame
      rw [DefinedAs, ← hSame, hInfo, Option.map_some, hKind] at hDefined
      exact hOther (Option.some.inj hDefined).symm
  refine ⟨?_, ?_, ?_⟩
  · intro k op hOp i w hAt
    exact hAfter (by simp) (hKept.results k op hOp i w hAt)
  · intro k found hFound i w hAt
    exact hAfter (by simp) (hKept.args k found hFound i w hAt)
  · intro b i w hDefined
    rw [DefinedAs, getElem?_erase_nat] at hDefined
    split at hDefined
    · cases hDefined
    · exact hKept.held b i w hDefined

----
-- Runs
----

theorem change (hUsers : m.UsersKept) (hOwners : m.OwnersKept) {c : Change}
    (hRun : c.run m = .ok () m') : m'.DefinitionsKept := by
  cases c with
  | newOp =>
    rcases discard_eq_ok hRun with ⟨o, hNew⟩
    exact hKept.newOp hUsers hNew
  | newPlaceholder =>
    rcases discard_eq_ok hRun with ⟨v, hNew⟩
    exact hKept.newPlaceholder hUsers hNew
  | newBlock =>
    rcases newBlock_eq_ok hRun with ⟨b, m₁, hDetached, hPlace⟩
    rcases placeBlock_eq_ok_iff.mp hPlace with ⟨info, region, -, -, -, rfl⟩
    exact (hKept.newDetachedBlock hUsers hDetached).of_same
      (fun _ => rfl) (fun _ => rfl) fun _ => rfl
  | newDetachedBlock =>
    rcases discard_eq_ok hRun with ⟨b, hNew⟩
    exact hKept.newDetachedBlock hUsers hNew
  | placeBlock =>
    rcases placeBlock_eq_ok_iff.mp hRun with ⟨info, region, -, -, -, rfl⟩
    exact hKept.of_same (fun _ => rfl) (fun _ => rfl) fun _ => rfl
  | addBlockArg =>
    rcases discard_eq_ok hRun with ⟨v, hNew⟩
    exact hKept.addBlockArg hUsers hNew
  | appendOp =>
    rcases appendOp_eq_ok_iff.mp hRun with ⟨info, region, os, -, -, -, -, -, rfl⟩
    exact hKept.of_same (fun _ => rfl) (fun _ => rfl) fun _ => rfl
  | pushTop =>
    rcases pushTop_eq_ok_iff.mp hRun with ⟨-, rfl⟩
    exact hKept.of_same (fun _ => rfl) (fun _ => rfl) fun _ => rfl
  | setAttr | setSpan | setOperand | replaceAllUses
  | replaceWithConstant => exact hKept.of_sameOwners (.change rfl hRun)
  | removePlaceholder => exact hKept.removePlaceholder hRun
  | removeOp =>
    rcases discard_eq_ok hRun with ⟨op, hRemove⟩
    exact hKept.removeOp hUsers hOwners hRemove

end

end DefinitionsKept

theorem Reached.definitionsKept (hReached : m.Reached) : m.DefinitionsKept := by
  induction hReached with
  | empty handles => exact .of_empty handles
  | change c hReached hRun ih => exact ih.change hReached.usersKept hReached.ownersKept hRun
  | elsewhere _ _ _ _ _ ih => exact ih.of_same (fun _ => rfl) (fun _ => rfl) fun _ => rfl

end Module

end FortranIR
