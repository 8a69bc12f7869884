import FortranIR.Proofs.Folding.Invariants

/-
  This file gives tests for the conditions under which folding
  keeps a module verified, and proves that a module that passes
  them meets the conditions.

  Scopes are tested by going out from the operation that uses a
  value. Descriptors are tested only where their address is read
  from the very result of the operation that makes them, or from
  one that folding leaves alone.

  Main declarations:
    * `Module.checkEach`
    * `Module.faithful_of_checkReads`
-/

namespace FortranIR

namespace Module

variable {m : Module}

----
-- Tests of all operations
----

/- A module can be walked over, and its operations pass a test. -/
def checkEach (m : Module) (test : List OpId → OpId → Operation → Bool) : Bool := match m.walk with
  | .ok walked => walked.all fun o => (m.ops[o.index]?).all (test walked o)
  | .error _ => false

theorem exists_walk_of_checkEach
    (hCheck : m.checkEach test = true) :
    ∃ walked, m.walk = .ok walked ∧ ∀ (o : OpId) (op : Operation), m.Live o →
        m.ops[o.index]? = some op → test walked o op = true := by
  unfold checkEach at hCheck
  split at hCheck
  · rename_i walked hWalk
    refine ⟨walked, hWalk, fun o op hLive hOp => ?_⟩
    have hTest := List.all_eq_true.mp hCheck o ((mem_walk_iff_live hWalk).mpr hLive)
    rw [hOp] at hTest
    exact hTest
  · cases hCheck

----
-- Scopes
----

/- An operation is around another one, at most so many levels up. -/
def surrounds (m : Module) (p : OpId) : Nat → OpId → Bool
  | 0, _ => false
  | depth + 1, u =>
    match m.parentOp? u with
    | .ok (some q) => q == p || m.surrounds p depth q
    | _ => false

/- A definition can be seen from an operation. -/
def seesDefinition (m : Module) (walked : List OpId) (u : OpId) : ValueDef → Bool
  | .result d _ =>
    walked.contains d && match m.parentOp? d with
      | .ok (some p) => m.surrounds p m.ops.size u
      | _ => true
  | .arg b _ =>
    match m.blockOwner b with
    | .ok p => m.surrounds p m.ops.size u
    | .error _ => true
  | .placeholder => true

/- The operations of a module see the values that they use. -/
def checkScopes (m : Module) : Bool := m.checkEach fun walked u op =>
    op.operands.all fun v =>
      (m.values[v.index]?).all fun info => m.seesDefinition walked u info.defined

section

variable (hOwners : m.OwnersKept) (hPlaces : m.PlacesKept)
include hOwners hPlaces

theorem within_of_parentOp? (hParent : m.parentOp? u = .ok (some p)) :
    m.Within p u := by
  rcases parentOp?_eq_some_iff.mp hParent with ⟨b, hPlace, hOwner⟩
  rcases hPlaces.within hOwners hPlace with ⟨info, region, hInfo, hRegion, hWithin⟩
  rcases blockOwner_eq_ok_iff.mp hOwner with ⟨found, other, hFound, hOther, rfl⟩
  cases hInfo.symm.trans hFound
  cases hRegion.symm.trans hOther
  exact hWithin

theorem inside_of_surrounds
    (hAround : m.surrounds p depth u = true) : m.Inside p u := by
  induction depth generalizing u with
  | zero => cases hAround
  | succ depth ih =>
    unfold surrounds at hAround
    split at hAround
    · rename_i q hParent
      have hWithin := within_of_parentOp? hOwners hPlaces hParent
      rcases Bool.or_eq_true_iff.mp hAround with hSame | hOuter
      · rw [beq_iff_eq] at hSame
        exact .single (hSame ▸ hWithin)
      · exact (ih hOuter).tail hWithin
    · cases hAround

theorem seenFrom_of_seesDefinition (hWalk : m.walk = .ok walked)
    (hSees : m.seesDefinition walked u defined = true) :
    m.SeenFrom u defined := by
  cases defined with
  | result d i =>
    rcases Bool.and_eq_true_iff.mp hSees with ⟨hIn, hAround⟩
    refine ⟨(mem_walk_iff_live hWalk).mp (List.contains_iff_mem.mp hIn), fun p hWithin => ?_⟩
    rw [hOwners.parentOp_of_within hWithin] at hAround
    exact inside_of_surrounds hOwners hPlaces hAround
  | arg b i =>
    intro p hOwner
    simp only [seesDefinition, hOwner] at hSees
    exact inside_of_surrounds hOwners hPlaces hSees
  | placeholder => trivial

theorem scoped_of_checkScopes (hCheck : m.checkScopes = true) : m.Scoped := by
  rcases exists_walk_of_checkEach hCheck with ⟨walked, hWalk, hEach⟩
  intro u op hLive hOp v hOperand info hInfo
  have hSees := List.all_eq_true.mp (hEach u op hLive hOp) v hOperand
  rw [hInfo] at hSees
  exact seenFrom_of_seesDefinition hOwners hPlaces hWalk hSees

end

----
-- Descriptors
----

/- Two values have the same type, and both exist. -/
def checkSameType (m : Module) (v w : ValueId) : Bool := match m.typeOf v, m.typeOf w with
  | .ok s, .ok t => s == t
  | _, _ => false

/-
  A descriptor may be read into some values: folding puts nothing
  in its place, and if it is made from an address then that has
  the type of these values.
-/
def checkDescriptor (m : Module) (results : List ValueId) : ValueDef → Bool
  | .result d _ =>
    (m.ops[d.index]?).all fun op =>
      op.kind != .convert && op.kind != .boxAddr && (op.kind != .embox ||
          op.operands.head?.all fun x => results.all fun r => m.checkSameType x r)
  | _ => true

/- The addresses of a module are read from such descriptors. -/
def checkReads (m : Module) : Bool := m.checkEach fun _ _ op =>
    op.kind != .boxAddr || op.operands.head?.all fun v =>
        (m.values[v.index]?).all fun info => m.checkDescriptor op.results info.defined

theorem sameType_of_checkSameType (hCheck : m.checkSameType v w = true) :
    m.SameType v w := by
  unfold checkSameType at hCheck
  split at hCheck
  · rename_i s t hSource hTarget
    rw [beq_iff_eq] at hCheck
    exact ⟨s, hSource, hCheck ▸ hTarget⟩
  · cases hCheck

/- What a descriptor that may be read is given by. -/
theorem Gives.of_checkDescriptor
    (hGives : m.Gives kind v b) (hCheck : ∀ info : ValueInfo, m.values[b.index]? = some info →
        m.checkDescriptor results info.defined = true) :
    kind ≠ .convert ∧ kind ≠ .boxAddr ∧ (kind = .embox → ∀ r ∈ results, m.SameType v r) := by
  rcases hGives with ⟨info, d, i, op, hInfo, hDefined, -, hOp, rfl, hHead⟩
  have hHere := hCheck info hInfo
  simp only [hDefined, checkDescriptor, hOp, hHead, Option.all_some,
    Bool.and_eq_true, Bool.or_eq_true, bne_iff_ne, List.all_eq_true] at hHere
  rcases hHere with ⟨⟨hConvert, hAddr⟩, hTypes⟩
  refine ⟨hConvert, hAddr, fun hEmbox r hIn => ?_⟩
  rcases hTypes with hOther | hSame
  · exact absurd hEmbox hOther
  · exact sameType_of_checkSameType (hSame r hIn)

theorem faithful_of_checkReads (hOwners : m.OwnersKept) (hCheck : m.checkReads = true) :
    m.Faithful := by
  rcases exists_walk_of_checkEach hCheck with ⟨walked, -, hEach⟩
  intro v r b x hAddr hYields hEmbox
  rcases hAddr with ⟨info, o, i, op, hInfo, hDefined, hLive, hOp, hKind, hHead⟩
  rcases hOwners.results _ info hInfo o i hDefined with ⟨found, hFound, hResult⟩
  cases hOp.symm.trans hFound
  have hReads := hEach o op hLive hOp
  have hDescriptor : ∀ info : ValueInfo, m.values[v.index]? = some info →
        m.checkDescriptor op.results info.defined = true := by
    intro descriptor hDescriptor
    simpa [hKind, hHead, hDescriptor] using hReads
  -- folding puts nothing in the place of the descriptor
  cases hYields with
  | refl => exact (hEmbox.of_checkDescriptor hDescriptor).2.2 rfl r (List.mem_of_getElem? hResult)
  | same hConvert => exact absurd rfl (hConvert.of_checkDescriptor hDescriptor).1
  | trip hOuter => exact absurd rfl (hOuter.of_checkDescriptor hDescriptor).1
  | address hOuter => exact absurd rfl (hOuter.of_checkDescriptor hDescriptor).2.1

end Module

end FortranIR
