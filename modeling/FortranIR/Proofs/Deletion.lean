import FortranIR.Proofs.Verification.Totality

/-
  This file states what a removal does to a constructed module.
  The operation goes, with all that is inside it. The walk keeps
  the other operations in their order, these keep their data and
  their places, and only the lists of users lose what is gone.

  Results that are used elsewhere stop a removal. Arguments and
  blocks do not, so what uses them is left without them.

  Main declarations:
    * `Module.Constructed.removeOp_deletes`
    * `Module.Constructed.closed_removeOp_iff`
-/

namespace FortranIR

variable {gone walked walked' : List OpId} {p : OpId} {op : Operation}

namespace Module

variable {m m' : Module}

----
-- What is left of a walk
----

section Filtered

variable {inner inner' : OpId → Except Fault (List OpId)} {cs : List OpId}

/-
  A walk from some operations without those that are gone. Each
  walk loses what is gone, and from what is gone there is nothing
  else to see.
-/
theorem joinWalks_filter (hLeft : ∀ c ∈ cs, c ∉ gone → ∀ list list', inner c = .ok list →
      inner' c = .ok list' → list' = list.filter (· ∉ gone))
    (hGone : ∀ c ∈ cs, c ∈ gone → ∀ list, inner c = .ok list → list.filter (· ∉ gone) = [])
    (hWalk : joinWalks inner cs = .ok walked)
    (hWalk' : joinWalks inner' (cs.filter (· ∉ gone)) = .ok walked') :
    walked' = walked.filter (· ∉ gone) := by
  induction cs generalizing walked walked' with
  | nil =>
    cases hWalk
    cases hWalk'
    rfl
  | cons c cs ih =>
    rw [joinWalks_cons] at hWalk
    rcases bind_eq_ok_iff.mp hWalk with ⟨first, hFirst, hNext⟩
    rcases bind_eq_ok_iff.mp hNext with ⟨rest, hRest, hDone⟩
    cases hDone
    have hLater {list : List OpId} := @ih rest list
      (fun d hIn => hLeft d (.tail c hIn))
      (fun d hIn => hGone d (.tail c hIn)) hRest
    rw [List.filter_append]
    by_cases hC : c ∈ gone
    · rw [List.filter_cons_of_neg (by simpa using hC)] at hWalk'
      rw [hLater hWalk', hGone c (.head _) hC first hFirst, List.nil_append]
    · rw [List.filter_cons_of_pos (by simpa using hC), joinWalks_cons] at hWalk'
      rcases bind_eq_ok_iff.mp hWalk' with ⟨first', hFirst', hNext'⟩
      rcases bind_eq_ok_iff.mp hNext' with ⟨rest', hRest', hDone'⟩
      cases hDone'
      rw [hLater hRest', hLeft c (.head _) hC first first' hFirst hFirst']

end Filtered

namespace Cuts

variable (hCuts : m.Cuts o gone m') (hKept : m.NestingKept)
include hCuts

include hKept in
theorem children_left (hLeft : p ∉ gone) :
    m'.children p = (m.children p).filter (· ∉ gone) := by
  have hSame := (hCuts.ops p.index).2 hLeft
  cases hOp : m.ops[p.index]? with
  | none => simp [children, hSame, hOp]
  | some op =>
    have hOp' := hSame.trans hOp
    rw [children_eq hOp, children_eq hOp', List.filter_flatMap]
    refine List.flatMap_congr fun r hListed => ?_
    rcases (hKept.regions _ op hOp).2 r hListed with ⟨region, hRegion⟩
    rw [opsOf_eq hRegion, opsOf_eq (hCuts.region_left hKept.reached.ownersKept hOp' hListed hRegion),
      List.filter_flatMap, trimmed, dropOps, List.flatMap_map]

/- What is seen from an operation that is gone is gone. -/
theorem walkOp_gone (hGone : p ∈ gone) (hWalk : m.walkOp depth p = .ok walked) :
    walked.filter (· ∉ gone) = [] := by
  refine List.filter_eq_nil_iff.mpr fun q hIn => ?_
  have hAbove := ((hCuts.inside p).mp hGone).trans ((mem_walkOp_iff hWalk).mp hIn)
  simpa using (hCuts.inside q).mpr hAbove

variable (hKept' : m'.NestingKept)
include hKept hKept'

theorem walkOp_left (hLeft : p ∉ gone) (hWalk : m.walkOp depth p = .ok walked)
    (hWalk' : m'.walkOp depth' p = .ok walked') : walked' = walked.filter (· ∉ gone) := by
  induction depth generalizing p depth' walked walked' with
  | zero => cases hWalk
  | succ depth ih =>
    cases depth' with
    | zero => cases hWalk'
    | succ depth' =>
      rcases bind_eq_ok_iff.mp hWalk with ⟨op, hOp, -⟩
      rcases bind_eq_ok_iff.mp hWalk' with ⟨op', hOp', -⟩
      rw [walkOp_succ hKept (op_eq_ok_iff.mp hOp)] at hWalk
      rw [walkOp_succ hKept' (op_eq_ok_iff.mp hOp'),
        hCuts.children_left hKept hLeft] at hWalk'
      rcases bind_eq_ok_iff.mp hWalk with ⟨nested, hNested, hDone⟩
      rcases bind_eq_ok_iff.mp hWalk' with ⟨nested', hNested', hDone'⟩
      cases hDone
      cases hDone'
      rw [List.filter_cons_of_pos (by simpa using hLeft)]
      refine congrArg (p :: ·) (joinWalks_filter ?_ ?_ hNested hNested')
      · exact fun c _ hC list list' hList hList' => ih hC hList hList'
      · exact fun c _ hC list hList => hCuts.walkOp_gone hC hList

theorem walk_left (hWalk : m.walk = .ok walked) (hWalk' : m'.walk = .ok walked') :
    walked' = walked.filter (· ∉ gone) := by
  have hTop : m'.top = m.top.filter (· ∉ gone) := by
    rcases hCuts.top with ⟨hPlaced, hSame⟩ | ⟨-, hSame⟩
    · rw [hSame, List.filter_eq_self.mpr]
      intro t hTop
      simpa using fun hGone => hPlaced
        (hCuts.eq_root_of_top hKept hTop hGone ▸ (hKept.top t hTop).2)
    · rw [hSame, hKept.distinct.erase_eq_filter]
      refine List.filter_congr fun t hTop => ?_
      have hIff : t ∈ gone ↔ t = o :=
        ⟨hCuts.eq_root_of_top hKept hTop, fun hRoot => hRoot ▸ hCuts.self⟩
      simp [bne, beq_eq_decide, hIff]
  rw [walk, hTop] at hWalk'
  refine joinWalks_filter ?_ ?_ hWalk hWalk'
  · exact fun c _ hC list list' hList hList' =>
      hCuts.walkOp_left hKept hKept' hC hList hList'
  · exact fun c _ hC list hList => hCuts.walkOp_gone hC hList

end Cuts

----
-- Functions that are removed
----

/- Steps build a module, and its first operation is removed from it. -/
theorem exists_removed {p : Module → Prop} (hRemoves :
      ∃ m ∈ (emptyAfter {}).built steps, Succeeds (removeOp ⟨0⟩) m fun _ m' => p m') :
    ∃ m op m', m.TypedBuilt ∧ removeOp ⟨0⟩ m = .ok op m' ∧ p m' := by
  rcases hRemoves with ⟨m, hBuilt, hRun⟩
  rcases hRun.eq_ok with ⟨op, m', hRun, hHolds⟩
  exact ⟨m, op, m', built_keeps (fun s b _ b' hRun hBefore => .build s hBefore hRun)
    (.empty {}) hBuilt, hRun, hHolds⟩

/- Two functions with an argument each that return these values. -/
def returning (v w : ValueId) : List (List BlockId × BuildStep) := [
    ([], .func "f" (.function [.i1] [.i1])), ([], .funcBody ⟨0⟩),
    ([], .func "g" (.function [.i1] [.i1])), ([], .funcBody ⟨1⟩),
    ([⟨0⟩], .ret [v]), ([⟨1⟩], .ret [w])]

----
-- What a removal leaves
----

/-
  Some operations are gone from the module and from its walk, and
  what belongs to them is gone. Other operations have their data
  and their places, and other values and blocks lose only users.
-/
structure Deletes (gone : List OpId) (m m' : Module) : Prop where
  ops : ∀ p found, m'.op p = .ok found ↔ m.op p = .ok found ∧ p ∉ gone
  places : ∀ p, p ∉ gone → m'.parentBlock? p = m.parentBlock? p
  walk : ∃ walked, m.walk = .ok walked ∧ m'.walk = .ok (walked.filter (· ∉ gone))
  values : ∀ v info', m'.value v = .ok info' ↔ ∃ info, m.value v = .ok info ∧
      ¬ m.OwnsValue (· ∈ gone) v ∧ { info with users := info.users.filter (· ∉ gone) } = info'
  blocks : ∀ b info', m'.block b = .ok info' ↔ ∃ info, m.block b = .ok info ∧
      ¬ m.OwnsBlock (· ∈ gone) b ∧ { info with users := info.users.filter (· ∉ gone) } = info'

/- A removal deletes an operation and those that are nested in it. -/
theorem Constructed.removeOp_deletes (hConstructed : m.Constructed)
    (hRun : removeOp o m = .ok op m') :
    ∃ gone : List OpId, (∀ p, p ∈ gone ↔ m.Above o p) ∧ m.Deletes gone m' := by
  have hKept := hConstructed.nestingKept
  have hKept' := hKept.removeOp hRun
  rcases removeOp_cuts hKept.reached.usersKept hKept.reached.ownersKept hRun with ⟨gone, hCuts⟩
  refine ⟨gone, hCuts.inside,
    { ops := fun p found => ?_
      places := fun p hLeft => (hCuts.places p.index).2 hLeft
      walk := ?_
      values := fun v info' => ?_
      blocks := fun b info' => ?_ }⟩
  · rw [op_eq_ok_iff, op_eq_ok_iff]
    exact hCuts.ops.some_iff
  · rcases walk_returns hKept with ⟨walked, hWalk⟩
    rcases walk_returns hKept' with ⟨walked', hWalk'⟩
    have hSame := hCuts.walk_left hKept hKept' hWalk hWalk'
    exact ⟨walked, hWalk, hSame ▸ hWalk'⟩
  · simp only [value_eq_ok_iff]
    exact hCuts.values v.index info'
  · simp only [block_eq_ok_iff]
    exact hCuts.blocks b.index info'

theorem Constructed.removeOp_deletes_function : ∃ m op m', m.Constructed ∧
      removeOp ⟨0⟩ m = .ok op m' ∧ m'.top = [⟨1⟩] ∧
      ∃ gone : List OpId, (∀ p, p ∈ gone ↔ m.Above ⟨0⟩ p) ∧ m.Deletes gone m' := by
  have hRemoves : ∃ m ∈ (emptyAfter {}).built (returning ⟨0⟩ ⟨1⟩),
      Succeeds (removeOp ⟨0⟩) m fun _ m' => m'.top = [⟨1⟩] := by decide +kernel
  rcases exists_removed hRemoves with ⟨m, op, m', hTyped, hRun, hTop⟩
  exact ⟨m, op, m', hTyped.constructed, hRun, hTop, hTyped.constructed.removeOp_deletes hRun⟩

----
-- References
----

/- What operations and blocks refer to exists. -/
structure Closed (m : Module) : Prop where
  operands : ∀ (k : Nat) (op : Operation), m.ops[k]? = some op →
      ∀ v ∈ op.operands, m.values[v.index]?.isSome
  successors : ∀ (k : Nat) (op : Operation), m.ops[k]? = some op →
      ∀ b ∈ op.successors, m.blocks[b.index]?.isSome
  homes : ∀ (k : Nat) (info : BlockInfo), m.blocks[k]? = some info →
      m.regions[info.region.index]?.isSome

theorem Linked.closed (hLinked : m.Linked) : m.Closed :=
  ⟨fun k op hOp => (hLinked.ops k op hOp).operands,
    fun k op hOp => (hLinked.ops k op hOp).successors, hLinked.blocks⟩

/-
  No operation outside uses a block inside, or an argument of
  one, and all the blocks of the regions inside are placed.
-/
structure Separate (m : Module) (gone : List OpId) : Prop where
  arguments : ∀ u user, m.op u = .ok user → u ∉ gone → ∀ v ∈ user.operands, ∀ b i,
      m.DefinedAs (.arg b i) v → ¬ m.OwnsBlock (· ∈ gone) b
  targets : ∀ u user, m.op u = .ok user → u ∉ gone → ∀ b ∈ user.successors,
      ¬ m.OwnsBlock (· ∈ gone) b
  placed : ∀ b info, m.block b = .ok info → m.OwnsRegion (· ∈ gone) info.region →
      m.OwnsBlock (· ∈ gone) b

/- Only what is separate from the rest is removed without a trace. -/
theorem Constructed.closed_removeOp_iff (hConstructed : m.Constructed) (hClosed : m.Closed)
    (hRun : removeOp o m = .ok op m') : ∃ gone : List OpId, (∀ p, p ∈ gone ↔ m.Above o p) ∧
      (m'.Closed ↔ m.Separate gone) := by
  have hReached := hConstructed.reached
  have hDefined := hReached.definitionsKept
  rcases removeOp_cuts hReached.usersKept hReached.ownersKept hRun with ⟨gone, hCuts⟩
  refine ⟨gone, hCuts.inside, fun hClosed' => ⟨?_, ?_, ?_⟩, ?_⟩
  · intro u user hUser hLeft v hOperand b i hArg hOwns
    have hUser' := hCuts.ops.some_iff.mpr ⟨op_eq_ok_iff.mp hUser, hLeft⟩
    rcases Option.isSome_iff_exists.mp (hClosed'.operands _ user hUser' v hOperand) with
      ⟨info', hInfo'⟩
    rcases (hCuts.values _ info').mp hInfo' with ⟨info, -, hStays, -⟩
    rcases hDefined.held b i v hArg with ⟨block, hBlock, hAt⟩
    exact hStays (.inr ⟨b, block, hOwns, hBlock, List.mem_of_getElem? hAt⟩)
  · intro u user hUser hLeft b hTarget hOwns
    have hUser' := hCuts.ops.some_iff.mpr ⟨op_eq_ok_iff.mp hUser, hLeft⟩
    rcases Option.isSome_iff_exists.mp (hClosed'.successors _ user hUser' b hTarget) with
      ⟨info', hInfo'⟩
    rcases (hCuts.blocks _ info').mp hInfo' with ⟨info, -, hStays, -⟩
    exact hStays hOwns
  · intro b info hInfo hHome
    by_contra hStays
    have hInfo' := (hCuts.blocks _ _).mpr ⟨info, block_eq_ok_iff.mp hInfo, hStays, rfl⟩
    rcases Option.isSome_iff_exists.mp (hClosed'.homes _ _ hInfo') with ⟨region', hRegion'⟩
    rcases (hCuts.regions _ region').mp hRegion' with ⟨region, -, hLeft, -⟩
    exact hLeft hHome
  · intro hSeparate
    constructor
    · intro k user hUser' v hOperand
      rcases hCuts.ops.some_iff.mp hUser' with ⟨hUser, hLeft⟩
      rcases Option.isSome_iff_exists.mp (hClosed.operands k user hUser v hOperand) with
        ⟨info, hInfo⟩
      refine Option.isSome_of_mem ((hCuts.values _ _).mpr ⟨info, hInfo, ?_, rfl⟩)
      rintro (⟨p, owner, hGone, hOwner, hResult⟩ | ⟨b, block, hOwns, hBlock, hArg⟩)
      · exact hCuts.unused p owner hGone hOwner v hResult ⟨k⟩ user hLeft hUser hOperand
      · rcases List.getElem?_of_mem hArg with ⟨i, hAt⟩
        exact hSeparate.arguments ⟨k⟩ user (op_eq_ok_iff.mpr hUser) hLeft v hOperand b i
          (hDefined.args _ block hBlock i v hAt) hOwns
    · intro k user hUser' b hTarget
      rcases hCuts.ops.some_iff.mp hUser' with ⟨hUser, hLeft⟩
      rcases Option.isSome_iff_exists.mp (hClosed.successors k user hUser b hTarget) with
        ⟨info, hInfo⟩
      exact Option.isSome_of_mem ((hCuts.blocks _ _).mpr ⟨info, hInfo,
        hSeparate.targets ⟨k⟩ user (op_eq_ok_iff.mpr hUser) hLeft b hTarget, rfl⟩)
    · intro k info' hInfo'
      rcases (hCuts.blocks k info').mp hInfo' with ⟨info, hInfo, hStays, rfl⟩
      rcases Option.isSome_iff_exists.mp (hClosed.homes k info hInfo) with ⟨region, hRegion⟩
      exact Option.isSome_of_mem ((hCuts.regions _ _).mpr ⟨region, hRegion,
        fun hHome => hStays (hSeparate.placed ⟨k⟩ info (block_eq_ok_iff.mpr hInfo) hHome), rfl⟩)

/- Each function returns its own argument. -/
theorem Constructed.closed_removeOp_iff_function : ∃ m op m', m.Constructed ∧ m.Closed ∧
      removeOp ⟨0⟩ m = .ok op m' ∧ ∃ gone : List OpId, (∀ p, p ∈ gone ↔ m.Above ⟨0⟩ p) ∧
        (m'.Closed ↔ m.Separate gone) := by
  have hRemoves : ∃ m ∈ (emptyAfter {}).built (returning ⟨0⟩ ⟨1⟩),
      Succeeds (removeOp ⟨0⟩) m fun _ _ => True := by decide +kernel
  rcases exists_removed hRemoves with ⟨m, op, m', hTyped, hRun, -⟩
  exact ⟨m, op, m', hTyped.constructed, hTyped.linked.closed, hRun,
    hTyped.constructed.closed_removeOp_iff hTyped.linked.closed hRun⟩

/- The other function returns the argument of the one that is removed. -/
theorem not_closed_removeOp_returning : ∃ m op m', m.Constructed ∧ m.Closed ∧
      removeOp ⟨0⟩ m = .ok op m' ∧ ¬ m'.Closed := by
  have hRemoves : ∃ m ∈ (emptyAfter {}).built (returning ⟨1⟩ ⟨0⟩),
      Succeeds (removeOp ⟨0⟩) m fun _ m' =>
        m'.values[0]? = none ∧ ∃ op ∈ m'.ops[3]?, ⟨0⟩ ∈ op.operands := by
    decide +kernel
  rcases exists_removed hRemoves with ⟨m, op, m', hTyped, hRun, hNone, user, hUser, hOperand⟩
  refine ⟨m, op, m', hTyped.constructed, hTyped.linked.closed, hRun, fun hClosed => ?_⟩
  have hSome := hClosed.operands 3 user hUser ⟨0⟩ hOperand
  simp [hNone] at hSome

end Module

end FortranIR
