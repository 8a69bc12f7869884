import FortranIR.Proofs.Steps
import FortranIR.Source.Typing

/-
  This file proves which extents the types of arrays have.

  The extent of a dimension with constant bounds is the number of
  its places, as long as the words in which it is computed can
  hold the difference of the bounds and one more than it.

  Main declarations:
    * `Extent.Counts`
    * `Scope.arrayType_extents`
-/

namespace FortranIR

----
-- Dimensions
----

/- The constant bounds of a dimension, whose first place is 1 by default. -/
def Bounds.constants (b : Bounds) : Option Int64 × Option Int64 :=
  (b.lower.elim (some 1) Expr.value, b.upper.bind Expr.value)

/- The bounds of all dimensions; those of characters begin with their length. -/
def ObjectDetails.dimensions (d : ObjectDetails) : List (Option Int64 × Option Int64) :=
  (if d.category = .character then [(some 1, d.length.bind Expr.value)] else []) ++
    d.shape.map Bounds.constants

namespace Extent

variable {dim : Option Int64 × Option Int64} {dims : List (Option Int64 × Option Int64)}

/- The number of places between two bounds, which both have to be known. -/
def Counts : Option Int64 × Option Int64 → Extent → Prop
  | (some l, some u), e => ∃ n, e = known n ∧ (n.toNat : Int) = max 0 (u.toInt - l.toInt + 1)
  | _, e => e = unknown

/- Signed words can hold what is computed from the bounds. -/
def Fits : Option Int64 × Option Int64 → Prop
  | (some l, some u) => -(2 ^ 63) ≤ u.toInt - l.toInt ∧ u.toInt - l.toInt + 1 < 2 ^ 63
  | _ => True

/- The extent is computed if and only if words can hold it. -/
theorem between_cases (dim : Option Int64 × Option Int64) :
    (∃ e, between dim.1 dim.2 = .ok e ∧ Fits dim ∧ Counts dim e) ∨
      between dim.1 dim.2 = .error .overflow ∧ ¬ Fits dim := by
  rcases dim with ⟨_ | l, _ | u⟩
  case some.some =>
    simp only [between, checkedInt]
    by_cases hFits : Fits (some l, some u)
    · have ⟨hLow, hHigh⟩ := hFits
      refine .inl ⟨known (.ofNat (u.toInt - l.toInt + 1).toNat), ?_, hFits, _, rfl, ?_⟩
      · have hSize : -(2 ^ 63) ≤ u.toInt - l.toInt + 1 ∧ _ := ⟨by omega, hHigh⟩
        rw [if_pos ⟨hLow, by omega⟩]
        simp only [bind, Except.bind, if_pos hSize]
        rfl
      · rw [UInt64.toNat_ofNat_of_lt' (by change _ < 2 ^ 64; omega)]
        omega
    · refine .inr ⟨?_, hFits⟩
      by_cases hDifference : -(2 ^ 63) ≤ u.toInt - l.toInt ∧ u.toInt - l.toInt < 2 ^ 63
      · have hSize : ¬ (-(2 ^ 63) ≤ u.toInt - l.toInt + 1 ∧ u.toInt - l.toInt + 1 < 2 ^ 63) :=
          fun hSize => hFits ⟨hDifference.1, hSize.2⟩
        rw [if_pos hDifference]
        simp only [bind, Except.bind, if_neg hSize]
      · rw [if_neg hDifference]
        rfl
  all_goals exact .inl ⟨unknown, rfl, trivial, rfl⟩

/- All dimensions have their extents, or one of them is too wide. -/
def Measures (dims : List (Option Int64 × Option Int64)) : Except Fault (List Extent) → Prop
  | .ok es => (∀ dim ∈ dims, Fits dim) ∧ List.Forall₂ Counts dims es
  | .error f => f = .overflow ∧ ∃ dim ∈ dims, ¬ Fits dim

theorem measures_cons (hRest : Measures dims es) (dim : Option Int64 × Option Int64) :
    Measures (dim :: dims) (es >>= fun es => return (← between dim.1 dim.2) :: es) ∧
      Measures (dim :: dims) (do return (← between dim.1 dim.2) :: (← es)) := by
  rcases between_cases dim with ⟨e, hRun, hFits, hCounts⟩ | ⟨hRun, hOver⟩
  · rw [hRun]
    cases es with
    | ok es =>
      have hAll : Measures (dim :: dims) (.ok (e :: es)) :=
        ⟨List.forall_mem_cons.mpr ⟨hFits, hRest.1⟩, .cons hCounts hRest.2⟩
      exact ⟨hAll, hAll⟩
    | error f =>
      rcases hRest with ⟨hFault, other, hIn, hOver⟩
      have hSome : ∃ other ∈ dim :: dims, ¬ Fits other :=
        ⟨other, .tail dim hIn, hOver⟩
      exact ⟨⟨hFault, hSome⟩, ⟨hFault, hSome⟩⟩
  · rw [hRun]
    have hSome : ∃ other ∈ dim :: dims, ¬ Fits other := ⟨dim, .head _, hOver⟩
    cases es with
    | ok es => exact ⟨⟨rfl, hSome⟩, ⟨rfl, hSome⟩⟩
    | error f => exact ⟨⟨hRest.1, hSome⟩, ⟨rfl, hSome⟩⟩

end Extent

theorem ObjectDetails.extents_measures (d : ObjectDetails) :
    Extent.Measures d.dimensions d.extents := by
  have hShape : Extent.Measures (d.shape.map Bounds.constants) (d.shape.mapM Bounds.extent) := by
    induction d.shape with
    | nil => exact ⟨nofun, .nil⟩
    | cons b bs ih =>
      rw [List.mapM_cons]
      exact (Extent.measures_cons ih b.constants).2
  unfold extents dimensions
  by_cases hCharacter : d.category = .character
  · simp only [if_pos hCharacter]
    exact (Extent.measures_cons hShape (some 1, d.length.bind Expr.value)).1
  · simp only [if_neg hCharacter, bind_pure]
    exact hShape

----
-- Arrays
----

namespace Scope

variable {scope : Scope} {defaults : DefaultKinds} {id : SymbolId} {s : Symbol} {d : ObjectDetails}
  {t : Ty}

theorem objectType_array (hElement : elementType defaults d = pure t) (hShape : d.shape ≠ [])
    (onHeap isPointer : Bool) : objectType defaults s d onHeap isPointer =
      ExceptT.mk (d.extents.map fun es => .ok (.sequence es t)) := by
  have hCategory : d.category ≠ .derived := by
    intro hDerived
    unfold elementType at hElement
    rw [hDerived] at hElement
    cases hKind : d.kind <;> rw [hKind] at hElement <;> cases hElement
  unfold objectType
  rw [if_neg hCategory, hElement]
  simp only [List.isEmpty_eq_false_iff.mpr hShape, Bool.not_false, if_true]
  cases d.extents <;> rfl

/-
  The types of an array and of its variables have the exact
  extents if signed words can hold what is computed for each
  dimension, and can not be computed otherwise.
-/
theorem arrayType_extents (hSymbol : scope.symbol id = .ok s) (hObject : s.details = .object d)
    (hShape : d.shape ≠ []) (hElement : elementType defaults d = pure t) (v : NamedVariable)
    (hVariable : v.symbol = id) :
    ((∀ dim ∈ d.dimensions, Extent.Fits dim) → ∃ es, List.Forall₂ Extent.Counts d.dimensions es ∧
      scope.symbolType defaults id = pure (.sequence es t) ∧
      scope.variableType defaults (.named v) = pure (.sequence es t)) ∧
    ((∃ dim ∈ d.dimensions, ¬ Extent.Fits dim) →
      (scope.symbolType defaults id).run = .error .overflow ∧
      (scope.variableType defaults (.named v)).run = .error .overflow) := by
  have hFound : scope.typedSymbol id = pure s := by
    unfold typedSymbol
    rw [hSymbol]
    rfl
  have hType : scope.symbolType defaults id =
      ExceptT.mk (d.extents.map fun es => .ok (.sequence es t)) := by
    rw [← objectType_array (s := s) hElement hShape false false]
    simp only [symbolType, typeWithin, hFound, pure_bind, hObject]
  have hVariableType : scope.variableType defaults (.named v) =
      ExceptT.mk (d.extents.map fun es => .ok (.sequence es t)) := by
    rw [← objectType_array (s := s) hElement hShape v.onHeap v.isPointer]
    simp only [variableType, hVariable, hFound, pure_bind, hObject]
  rw [hType, hVariableType]
  have hMeasures := d.extents_measures
  cases hRun : d.extents with
  | ok es =>
    rw [hRun] at hMeasures
    refine ⟨fun _ => ⟨es, hMeasures.2, rfl, rfl⟩, ?_⟩
    rintro ⟨dim, hIn, hOver⟩
    exact absurd (hMeasures.1 dim hIn) hOver
  | error f =>
    rw [hRun] at hMeasures
    rcases hMeasures with ⟨rfl, dim, hIn, hOver⟩
    exact ⟨fun hFits => absurd (hFits dim hIn) hOver, fun _ => ⟨rfl, rfl⟩⟩

/- An array with constant bounds for its dimensions. -/
def ofBounds (category : Category) (bounds : List (Int64 × Int64)) : Scope :=
  ⟨[⟨"a", .object { category, length := some ⟨.integer, [], some 8⟩, shape := bounds.map fun b =>
    ⟨some ⟨.integer, [], some b.1⟩, some ⟨.integer, [], some b.2⟩⟩ }, 0, 0, {}⟩], []⟩

/- Characters, with a dimension that is as wide as can be and an empty one. -/
theorem arrayType_extents_characters : ∃ es,
    List.Forall₂ Extent.Counts [(some 1, some 8), (some 1, some 9223372036854775807),
      (some 5, some (-3))] es ∧
    (ofBounds .character [(1, 9223372036854775807), (5, -3)]).symbolType {} 0 =
      pure (.sequence es (.character 1)) := by
  have hFits : ∀ dim ∈ [(some (1 : Int64), some (8 : Int64)), (some 1, some 9223372036854775807),
      (some 5, some (-3))], Extent.Fits dim := by
    simp only [List.forall_mem_cons, Extent.Fits]
    exact ⟨by decide, by decide, by decide, nofun⟩
  have hBoth := @arrayType_extents (ofBounds .character [(1, 9223372036854775807), (5, -3)]) {} 0
    _ _ _ rfl rfl nofun rfl ⟨0, 0, false, false, false, false, none⟩ rfl
  rcases hBoth.1 hFits with ⟨es, hCounts, hType, -⟩
  exact ⟨es, hCounts, hType⟩

/- One place more, and the exact extent is still a word. -/
theorem symbolType_fromZero :
    ((ofBounds .integer [(0, 9223372036854775807)]).symbolType {} 0).run = .error .overflow ∧
      Extent.Counts (some 0, some 9223372036854775807) (.known 9223372036854775808) :=
  ⟨rfl, _, rfl, by decide⟩

end Scope

end FortranIR
