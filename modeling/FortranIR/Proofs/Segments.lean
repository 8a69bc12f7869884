import FortranIR.Module.Parts
import FortranIR.Proofs.Edit

/-
  This file states what the segments of a list are: the parts of
  a division that covers the list, one behind the other.

  Main declarations:
    * `Segments.split_eq_ok_iff`
    * `Module.successorOperands_br`
-/

namespace FortranIR

variable {sizes : List Nat}

----
-- Segments
----

/- Sums are found as long as they are words. -/
theorem checkedSum_eq_ok_iff :
    checkedSum xs = .ok total ↔ xs.sum < 2 ^ 64 ∧ total = xs.sum := by
  have hFrom : ∀ start, start < 2 ^ 64 → (xs.foldlM checkedAdd start = .ok total ↔
      start + xs.sum < 2 ^ 64 ∧ total = start + xs.sum) := by
    induction xs with
    | nil =>
      intro start hFits
      change Except.ok start = .ok total ↔ start < 2 ^ 64 ∧ total = start
      rw [Except.ok.injEq, eq_comm]
      exact ⟨fun hSame => ⟨hFits, hSame⟩, And.right⟩
    | cons x xs ih =>
      intro start _
      rw [List.foldlM_cons, bind_eq_ok_iff, List.sum_cons, ← Nat.add_assoc]
      unfold checkedAdd
      constructor
      · rintro ⟨next, hFirst, hRest⟩
        split at hFirst
        · rename_i hFits
          cases hFirst
          exact (ih _ hFits).mp hRest
        · cases hFirst
      · intro hBoth
        have hFits : start + x < 2 ^ 64 := by omega
        exact ⟨start + x, if_pos hFits, (ih _ hFits).mpr hBoth⟩
  simpa [checkedSum] using hFrom 0 (by decide)

namespace Segments

variable {α : Type} {s : Segments α} {items : List α}

/- The sizes cover the list, and their sum is a word. -/
def Covers (s : Segments α) : Prop := s.sizes.sum < 2 ^ 64 ∧ s.sizes.sum = s.items.length

/- A division covers the list that it divides. -/
theorem split_eq_ok_iff : split items sizes = .ok (.ok s) ↔ s = ⟨items, sizes⟩ ∧ s.Covers := by
  unfold split
  simp only [bind_eq_ok_iff, checkedSum_eq_ok_iff]
  constructor
  · rintro ⟨covered, ⟨hFits, rfl⟩, hRest⟩
    split at hRest
    · rename_i hAll
      cases hRest
      exact ⟨rfl, hFits, hAll⟩
    · cases hRest
  · rintro ⟨rfl, hFits, hAll⟩
    exact ⟨_, ⟨hFits, rfl⟩, if_pos hAll⟩

theorem length_toLists (s : Segments α) : s.toLists.length = s.sizes.length := by
  simp [toLists, length]

theorem toLists_cons (items : List α) (size : Nat) (sizes : List Nat) :
    toLists ⟨items, size :: sizes⟩ = items.take size :: toLists ⟨items.drop size, sizes⟩ := by
  unfold toLists length
  rw [List.length_cons, List.range_succ_eq_map]
  simp [start]

/- The segments of a list that they cover join to the list. -/
theorem flatten_toLists (hCovered : sizes.sum = items.length) :
    (toLists ⟨items, sizes⟩).flatten = items := by
  induction sizes generalizing items with
  | nil =>
    rw [List.sum_nil, eq_comm, List.length_eq_zero_iff] at hCovered
    rw [hCovered]
    rfl
  | cons size sizes ih =>
    rw [List.sum_cons] at hCovered
    rw [toLists_cons, List.flatten_cons, ih, List.take_append_drop]
    rw [List.length_drop]
    omega

/- Each segment has its size. -/
theorem map_length_toLists (hCovered : sizes.sum = items.length) :
    (toLists ⟨items, sizes⟩).map List.length = sizes := by
  induction sizes generalizing items with
  | nil => rfl
  | cons size sizes ih =>
    rw [List.sum_cons] at hCovered
    rw [toLists_cons, List.map_cons, ih (by rw [List.length_drop]; omega), List.length_take,
      Nat.min_eq_left (by omega)]

theorem toLists_ofLists (xss : List (List α)) : (ofLists xss).toLists = xss := by
  induction xss with
  | nil => rfl
  | cons xs xss ih =>
    rw [ofLists, List.flatten_cons, List.map_cons, toLists_cons, List.take_left, List.drop_left]
    exact congrArg (xs :: ·) ih

theorem segment_eq_ok_iff : s.segment i = .ok xs ↔ s.toLists[i]? = some xs := by
  unfold segment toLists entry length
  rw [bind_eq_ok_iff, List.getElem?_map, Option.map_eq_some_iff]
  simp only [orElse_eq_ok_iff]
  constructor
  · rintro ⟨size, hSize, hDone⟩
    cases hDone
    refine ⟨i, ?_, by rw [hSize]; rfl⟩
    exact List.getElem?_range (List.getElem?_eq_some_iff.mp hSize).1
  · rintro ⟨j, hRange, rfl⟩
    have hBelow := (List.getElem?_eq_some_iff.mp hRange).1
    rw [List.length_range] at hBelow
    rw [List.getElem?_range hBelow, Option.some.injEq] at hRange
    subst hRange
    refine ⟨s.sizes[i], List.getElem?_eq_getElem hBelow, ?_⟩
    rw [List.getElem?_eq_getElem hBelow]
    rfl

end Segments

----
-- Branches
----

namespace Module

variable {m : Module} {op : Operation}

theorem successorOperands_br (hOp : m.op o = .ok op) (hKind : op.kind = .br) :
    m.successorOperands o 0 = .ok op.operands := by
  unfold successorOperands
  rw [hOp, ok_bind, hKind]
  rfl

end Module

end FortranIR
