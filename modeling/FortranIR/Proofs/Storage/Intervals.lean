import FortranIR.Proofs.Steps
import FortranIR.Storage.Interval

/-
  This file proves that a set of intervals holds the classes of
  the intervals that were added to it, where two intervals are
  in one class if a chain of overlapping intervals links them.

  Each interval of the set is the union of its class, and the
  intervals of the set are disjoint. Intervals that only touch,
  without a common byte, stay apart.

  Main declarations:
    * `Keyed.Sorted`
    * `IntervalSet.Merged.merge`
-/

namespace FortranIR

variable {xs : List (Nat × Nat)} {b : Nat} {e y x : Nat × Nat}

----
-- Sorted maps
----

namespace Keyed

variable {α : Type} {entries : Keyed α} {a : α}

/- The entries of a map are in the order of their keys. -/
def Sorted (entries : Keyed α) : Prop := entries.Pairwise fun e f => e.1 < f.1

theorem find?_insert (key : Nat) (a : α) (entries : Keyed α) (k : Nat) :
    (insert key a entries).find? k = if k = key then some a else entries.find? k := by
  unfold find?
  induction entries with
  | nil =>
    rw [insert]
    by_cases hSame : k = key
    · simp [hSame]
    · simp [hSame]
  | cons e rest ih =>
    rw [insert]
    by_cases hSame : k = key
    · subst hSame
      rw [if_pos rfl]
      split
      · exact List.lookup_cons_self
      · split
        · exact List.lookup_cons_self
        · rename_i hOther
          rw [lookup_cons_of_ne hOther, ih, if_pos rfl]
    · split
      · exact lookup_cons_of_ne hSame
      · split
        · rename_i hKey
          subst hKey
          rw [lookup_cons_of_ne hSame, lookup_cons_of_ne hSame]
        · rw [List.lookup_cons, List.lookup_cons, ih, if_neg hSame]

theorem mem_insert_of_mem {e : Nat × α} (hMember : e ∈ insert key a entries) :
    e = (key, a) ∨ e ∈ entries := by
  induction entries with
  | nil => exact .inl (List.mem_singleton.mp hMember)
  | cons f rest ih =>
    rw [insert] at hMember
    split at hMember
    · exact List.mem_cons.mp hMember
    · split at hMember
      · rcases List.mem_cons.mp hMember with hHead | hRest
        · exact .inl hHead
        · exact .inr (.tail f hRest)
      · rcases List.mem_cons.mp hMember with hHead | hRest
        · exact .inr (hHead ▸ List.mem_cons_self)
        · rcases ih hRest with hNew | hOld
          · exact .inl hNew
          · exact .inr (.tail f hOld)

theorem mem_foldl_erase {keys : Keyed α} {e : Nat × α} :
    e ∈ keys.foldl (fun es f => erase f.1 es) entries ↔ e ∈ entries ∧ ∀ f ∈ keys, e.1 ≠ f.1 := by
  induction keys generalizing entries with
  | nil => simp
  | cons f keys ih =>
    rw [List.foldl_cons, ih, erase]
    simp [and_assoc]

variable (hSorted : Sorted entries)
include hSorted

theorem Sorted.keys_nodup : (entries.map Prod.fst).Nodup := by
  rw [List.Nodup, List.pairwise_map]
  exact hSorted.imp fun hLess => Nat.ne_of_lt hLess

theorem Sorted.find?_eq_some_iff {a : α} :
    entries.find? k = some a ↔ (k, a) ∈ entries := lookup_eq_some_iff_mem hSorted.keys_nodup k a
/- An entry of a sorted map is known by its key. -/
theorem Sorted.eq_of_key_eq {e f : Nat × α} (hE : e ∈ entries)
    (hF : f ∈ entries) (hKey : e.1 = f.1) : e = f := by
  have hFound := hSorted.find?_eq_some_iff.mpr hE
  rw [hKey, hSorted.find?_eq_some_iff.mpr hF, Option.some.injEq] at hFound
  exact Prod.ext hKey hFound.symm

theorem Sorted.insert (key : Nat) (a : α) :
    Sorted (Keyed.insert key a entries) := by
  induction entries with
  | nil => exact List.pairwise_singleton _ _
  | cons f rest ih =>
    have hBelow := List.pairwise_cons.mp hSorted
    rw [Keyed.insert]
    split
    · rename_i hLess
      refine List.pairwise_cons.mpr ⟨?_, hSorted⟩
      intro e hMember
      rcases List.mem_cons.mp hMember with rfl | hRest
      · exact hLess
      · exact Nat.lt_trans hLess (hBelow.1 e hRest)
    · split
      · rename_i hSame
        subst hSame
        exact List.pairwise_cons.mpr hBelow
      · rename_i hNotLess hOther
        refine List.pairwise_cons.mpr ⟨?_, ih hBelow.2⟩
        intro e hMember
        rcases mem_insert_of_mem hMember with rfl | hRest
        · exact Nat.lt_of_le_of_ne (Nat.le_of_not_lt hNotLess) (Ne.symm hOther)
        · exact hBelow.1 e hRest

theorem Sorted.mem_insert_iff {e : Nat × α} :
    e ∈ Keyed.insert key a entries ↔ e = (key, a) ∨ e ∈ entries ∧ e.1 ≠ key := by
  rcases e with ⟨k, b⟩
  rw [← (hSorted.insert key a).find?_eq_some_iff, find?_insert, ← hSorted.find?_eq_some_iff]
  by_cases hSame : k = key
  · simp [hSame, eq_comm]
  · simp [hSame]

theorem Sorted.foldl_erase (keys : Keyed α) :
    Sorted (keys.foldl (fun es f => erase f.1 es) entries) := by
  induction keys generalizing entries with
  | nil => exact hSorted
  | cons f _ ih => exact ih (hSorted.filter _)

end Keyed

namespace IntervalSet

----
-- Lookups
----

/-
  The intervals of a set have bytes, are in the order of their
  first bytes, and have no byte in common.
-/
structure Disjoint (set : IntervalSet) : Prop where
  sorted : Keyed.Sorted set.ends
  nonempty : ∀ e ∈ set.ends, e.1 ≤ e.2
  apart : ∀ e ∈ set.ends, ∀ f ∈ set.ends, e.1 < f.1 → e.2 < f.1

variable {set : IntervalSet}

theorem Disjoint.empty : Disjoint {} := ⟨List.Pairwise.nil, by simp, by simp⟩

/- Intervals of a set with a common byte are the same. -/
theorem Disjoint.eq_of_common (hDisjoint : set.Disjoint) (hE : e ∈ set.ends)
    (hF : f ∈ set.ends) (hInE : e.1 ≤ b ∧ b ≤ e.2) (hInF : f.1 ≤ b ∧ b ≤ f.2) : e = f := by
  rcases Nat.lt_trichotomy e.1 f.1 with hLess | hSame | hLess
  · have hApart := hDisjoint.apart e hE f hF hLess
    omega
  · exact hDisjoint.sorted.eq_of_key_eq hE hF hSame
  · have hApart := hDisjoint.apart f hF e hE hLess
    omega

theorem find?_eq_some_iff (hDisjoint : set.Disjoint) :
    set.find? b = some e ↔ e ∈ set.ends ∧ e.1 ≤ b ∧ b ≤ e.2 := by
  unfold find?
  rw [Option.filter_eq_some_iff, decide_eq_true_eq]
  constructor
  · rintro ⟨hLast, hEnd⟩
    have hMember := List.mem_filter.mp (List.mem_of_getLast? hLast)
    exact ⟨hMember.1, of_decide_eq_true hMember.2, hEnd⟩
  · rintro ⟨hMember, hStart, hEnd⟩
    refine ⟨?_, hEnd⟩
    have hListed : e ∈ set.ends.filter fun f => f.1 ≤ b :=
      List.mem_filter.mpr ⟨hMember, decide_eq_true hStart⟩
    cases hLast : (set.ends.filter fun f => f.1 ≤ b).getLast? with
    | none =>
      rw [List.getLast?_eq_none_iff.mp hLast] at hListed
      cases hListed
    | some f =>
      -- an interval that begins later would begin behind the byte
      have hF := List.mem_filter.mp (List.mem_of_getLast? hLast)
      have hBelow : f.1 ≤ b := of_decide_eq_true hF.2
      have hOrder : e.1 ≤ f.1 := by
        rcases List.getLast?_eq_some_iff.mp hLast with ⟨init, hInit⟩
        have hSorted := hDisjoint.sorted.filter fun f => decide (f.1 ≤ b)
        rw [hInit, List.pairwise_append] at hSorted
        rw [hInit] at hListed
        rcases List.mem_append.mp hListed with hBefore | hSame
        · exact Nat.le_of_lt (hSorted.2.2 e hBefore f (List.mem_singleton.mpr rfl))
        · exact Nat.le_of_eq (congrArg Prod.fst (List.mem_singleton.mp hSame))
      have hInF : f.1 ≤ b ∧ b ≤ f.2 := by
        refine ⟨hBelow, ?_⟩
        rcases Nat.lt_or_eq_of_le hOrder with hLess | hSame
        · have hApart := hDisjoint.apart e hMember f hF.1 hLess
          omega
        · rw [← hDisjoint.sorted.eq_of_key_eq hMember hF.1 hSame]
          exact hEnd
      rw [hDisjoint.eq_of_common hMember hF.1 ⟨hStart, hEnd⟩ hInF]

----
-- Merging
----

/- A bound that is taken one by one is on the right side of all, and one of them. -/
theorem foldl_bound {f : Nat → Nat → Nat} {r : Nat → Nat → Prop} (hRefl : ∀ n, r n n)
    (hTrans : ∀ {a b c}, r a b → r b c → r a c) (hLeft : ∀ a b, r (f a b) a)
    (hRight : ∀ a b, r (f a b) b) (hEither : ∀ a b, f a b = a ∨ f a b = b)
    (part : Nat × Nat → Nat) (es : List (Nat × Nat)) (n : Nat) : let bound := es.foldl (fun m e => f m (part e)) n
    r bound n ∧ (∀ e ∈ es, r bound (part e)) ∧ (bound = n ∨ ∃ e ∈ es, bound = part e) := by
  induction es generalizing n with
  | nil => simp [hRefl n]
  | cons e es ih =>
    rcases ih (f n (part e)) with ⟨hBase, hAll, hReached⟩
    refine ⟨hTrans hBase (hLeft _ _), ?_, ?_⟩
    · intro d hMember
      rcases List.mem_cons.mp hMember with rfl | hRest
      · exact hTrans hBase (hRight _ _)
      · exact hAll d hRest
    · rcases hReached with hSame | ⟨d, hRest, hSame⟩
      · rcases hEither n (part e) with hOld | hNew
        · exact .inl (hSame.trans hOld)
        · exact .inr ⟨e, .head _, hSame.trans hNew⟩
      · exact .inr ⟨d, .tail e hRest, hSame⟩

/- Two intervals have a byte in common. -/
def Overlap (x y : Nat × Nat) : Prop := x.1 ≤ y.2 ∧ y.1 ≤ x.2

/-
  What the merged interval is: it spans the new interval and all
  that overlap it, and it begins and ends where one of them does.
-/
structure Spans (set : IntervalSet) (x : Nat × Nat) (m : Nat × Nat) : Prop where
  lower : m.1 ≤ x.1
  upper : x.2 ≤ m.2
  within : ∀ e ∈ set.ends, Overlap e x → m.1 ≤ e.1 ∧ e.2 ≤ m.2
  first : m.1 = x.1 ∨ ∃ e ∈ set.ends, Overlap e x ∧ m.1 = e.1
  last : m.2 = x.2 ∨ ∃ e ∈ set.ends, Overlap e x ∧ m.2 = e.2

section

variable (hDisjoint : set.Disjoint)
include hDisjoint

/- All but the overlapping intervals stay as they are. -/
theorem mem_merge_iff (hBytes : x.1 ≤ x.2) :
    ∃ m, Spans set x m ∧ Keyed.Sorted (set.merge x.1 x.2).ends ∧ ∀ e, e ∈ (set.merge x.1 x.2).ends ↔
        e = m ∨ e ∈ set.ends ∧ ¬ Overlap e x := by
  have hMember : ∀ e, e ∈ set.ends.filter (fun e => e.1 ≤ x.2 ∧ x.1 ≤ e.2) ↔
        e ∈ set.ends ∧ Overlap e x := by
    intro e
    rw [List.mem_filter, decide_eq_true_eq]
    rfl
  simp only [merge]
  generalize set.ends.filter (fun e => e.1 ≤ x.2 ∧ x.1 ≤ e.2) = others at hMember ⊢
  rcases foldl_bound Nat.le_refl Nat.le_trans Nat.min_le_left Nat.min_le_right
      (fun a b => by omega) Prod.fst others x.1 with ⟨hLower, hBelow, hFirst⟩
  rcases foldl_bound (r := (· ≥ ·)) Nat.le_refl (fun h h' => Nat.le_trans h' h)
      Nat.le_max_left Nat.le_max_right (fun a b => by omega) Prod.snd others x.2 with
    ⟨hUpper, hAbove, hLast⟩
  have hErased := hDisjoint.sorted.foldl_erase others
  refine ⟨(_, _), ⟨hLower, hUpper, ?_, ?_, ?_⟩, hErased.insert _ _, ?_⟩
  · intro e hE hOverlap
    have hIn := (hMember e).mpr ⟨hE, hOverlap⟩
    exact ⟨hBelow e hIn, hAbove e hIn⟩
  · rcases hFirst with hSame | ⟨e, hIn, hSame⟩
    · exact .inl hSame
    · exact .inr ⟨e, ((hMember e).mp hIn).1, ((hMember e).mp hIn).2, hSame⟩
  · rcases hLast with hSame | ⟨e, hIn, hSame⟩
    · exact .inl hSame
    · exact .inr ⟨e, ((hMember e).mp hIn).1, ((hMember e).mp hIn).2, hSame⟩
  · intro e
    rw [hErased.mem_insert_iff, Keyed.mem_foldl_erase]
    refine or_congr_right ⟨?_, ?_⟩
    · rintro ⟨⟨hE, hKeys⟩, -⟩
      exact ⟨hE, fun hOverlap => hKeys e ((hMember e).mpr ⟨hE, hOverlap⟩) rfl⟩
    · rintro ⟨hE, hOutside⟩
      have hOther : ∀ f ∈ others, e.1 ≠ f.1 := by
        intro f hIn hSame
        have hF := (hMember f).mp hIn
        apply hOutside
        rw [hDisjoint.sorted.eq_of_key_eq hE hF.1 hSame]
        exact hF.2
      refine ⟨⟨hE, hOther⟩, ?_⟩
      -- the merged interval begins where an overlapping one does
      rcases hFirst with hSame | ⟨f, hIn, hSame⟩
      · intro hKey
        have hSome := hDisjoint.nonempty e hE
        apply hOutside
        rw [hSame] at hKey
        exact ⟨hKey ▸ hBytes, hKey ▸ hSome⟩
      · rw [hSame]
        exact hOther f hIn

/- What is not merged has no byte in common with what is. -/
theorem Spans.apart (hSpans : Spans set x m)
    (hE : e ∈ set.ends) (hOutside : ¬ Overlap e x) : e.2 < m.1 ∨ m.2 < e.1 := by
  have hSome := hDisjoint.nonempty e hE
  have hSides : e.2 < x.1 ∨ x.2 < e.1 := by
    unfold Overlap at hOutside
    omega
  rcases hSides with hBefore | hBehind
  · left
    rcases hSpans.first with hSame | ⟨f, hF, hOverlap, hSame⟩
    · omega
    · rw [hSame]
      unfold Overlap at hOverlap
      rcases Nat.lt_trichotomy e.1 f.1 with hLess | hKey | hLess
      · exact hDisjoint.apart e hE f hF hLess
      · rw [hDisjoint.sorted.eq_of_key_eq hE hF hKey] at hBefore
        omega
      · have hApart := hDisjoint.apart f hF e hE hLess
        omega
  · right
    rcases hSpans.last with hSame | ⟨f, hF, hOverlap, hSame⟩
    · omega
    · rw [hSame]
      unfold Overlap at hOverlap
      rcases Nat.lt_trichotomy f.1 e.1 with hLess | hKey | hLess
      · exact hDisjoint.apart f hF e hE hLess
      · omega
      · omega

theorem Disjoint.merge (hBytes : x.1 ≤ x.2) :
    (set.merge x.1 x.2).Disjoint := by
  rcases mem_merge_iff hDisjoint hBytes with ⟨m, hSpans, hSorted, hMember⟩
  have hLower := hSpans.lower
  have hUpper := hSpans.upper
  refine ⟨hSorted, ?_, ?_⟩
  · intro e hE
    rcases (hMember e).mp hE with rfl | ⟨hOld, -⟩
    · omega
    · exact hDisjoint.nonempty e hOld
  · intro e hE f hF hLess
    rcases (hMember e).mp hE with rfl | ⟨hOldE, hOutE⟩
    · rcases (hMember f).mp hF with rfl | ⟨hOldF, hOutF⟩
      · omega
      · have hSides := hSpans.apart hDisjoint hOldF hOutF
        have hSome := hDisjoint.nonempty f hOldF
        omega
    · rcases (hMember f).mp hF with rfl | ⟨hOldF, _⟩
      · have hSides := hSpans.apart hDisjoint hOldE hOutE
        omega
      · exact hDisjoint.apart e hOldE f hOldF hLess

end

----
-- Classes
----

/- A chain of overlapping intervals of a list. -/
def Chain (xs : List (Nat × Nat)) : Nat × Nat → Nat × Nat → Prop :=
  Relation.ReflTransGen fun x y => x ∈ xs ∧ y ∈ xs ∧ Overlap x y

theorem Chain.symm (hChain : Chain xs x y) : Chain xs y x := by
  induction hChain with
  | refl => exact .refl
  | tail _ hStep ih =>
    rcases hStep with ⟨hFrom, hTo, hOverlap⟩
    exact .head ⟨hTo, hFrom, hOverlap.2, hOverlap.1⟩ ih

theorem Chain.mono (hSubset : ∀ x ∈ xs, x ∈ ys) (hChain : Chain xs x y) :
    Chain ys x y :=
  hChain.lift id fun _ _ hStep => ⟨hSubset _ hStep.1, hSubset _ hStep.2.1, hStep.2.2⟩

/-
  A set holds the classes of some intervals: each of them lies
  in an interval of the set, all bytes of the set are theirs,
  and those that begin in one interval of the set are linked.
-/
structure Merged (xs : List (Nat × Nat)) (set : IntervalSet) : Prop where
  disjoint : set.Disjoint
  within : ∀ x ∈ xs, ∃ e ∈ set.ends, e.1 ≤ x.1 ∧ x.2 ≤ e.2
  covered : ∀ e ∈ set.ends, ∀ b, e.1 ≤ b → b ≤ e.2 → ∃ x ∈ xs, x.1 ≤ b ∧ b ≤ x.2
  linked : ∀ e ∈ set.ends, ∀ x ∈ xs, ∀ y ∈ xs, (e.1 ≤ x.1 ∧ x.1 ≤ e.2) → (e.1 ≤ y.1 ∧ y.1 ≤ e.2) →
      Chain xs x y

theorem Merged.empty : Merged [] {} := ⟨.empty, by simp, by simp, by simp⟩

/- What begins in an interval that the new one overlaps is linked to it. -/
theorem Merged.chain (hMerged : Merged xs set) (hSome : x.1 ≤ x.2)
    (hE : e ∈ set.ends) (hOverlap : Overlap e x) (hY : y ∈ xs) (hBegins : e.1 ≤ y.1 ∧ y.1 ≤ e.2) :
    Chain (xs ++ [x]) y x := by
  unfold Overlap at hOverlap
  -- a byte of the interval that is also in the new one
  rcases hMerged.covered e hE (max e.1 x.1) (by omega) (by omega) with ⟨w, hW, hByte⟩
  rcases hMerged.within w hW with ⟨f, hF, hWithin⟩
  have hSame : e = f := hMerged.disjoint.eq_of_common hE hF (b := max e.1 x.1) (by omega) (by omega)
  subst hSame
  have hFirst : Chain xs y w := hMerged.linked e hE y hY w hW hBegins (by omega)
  refine (hFirst.mono fun z hZ => List.mem_append.mpr (.inl hZ)).tail ?_
  refine ⟨List.mem_append.mpr (.inl hW), by simp, ?_⟩
  unfold Overlap
  omega

theorem Merged.merge (hBytes : ∀ y ∈ xs, y.1 ≤ y.2) (hMerged : Merged xs set) (hSome : x.1 ≤ x.2) :
    Merged (xs ++ [x]) (set.merge x.1 x.2) := by
  have hDisjoint := hMerged.disjoint
  rcases mem_merge_iff hDisjoint hSome with ⟨m, hSpans, -, hMember⟩
  have hNew : m ∈ (set.merge x.1 x.2).ends := (hMember m).mpr (.inl rfl)
  have hLower := hSpans.lower
  have hUpper := hSpans.upper
  refine ⟨hDisjoint.merge hSome, ?_, ?_, ?_⟩
  · intro y hY
    rcases List.mem_append.mp hY with hOld | hLast
    · rcases hMerged.within y hOld with ⟨e, hE, hWithin⟩
      by_cases hOverlap : Overlap e x
      · have hIn := hSpans.within e hE hOverlap
        exact ⟨m, hNew, by omega⟩
      · exact ⟨e, (hMember e).mpr (.inr ⟨hE, hOverlap⟩), hWithin⟩
    · rw [List.mem_singleton.mp hLast]
      exact ⟨m, hNew, hLower, hUpper⟩
  · intro e hE b hStart hEnd
    have hOld : ∀ f ∈ set.ends, f.1 ≤ b → b ≤ f.2 → ∃ y ∈ xs ++ [x], y.1 ≤ b ∧ b ≤ y.2 := by
      intro f hF hFirst hLast
      rcases hMerged.covered f hF b hFirst hLast with ⟨y, hY, hByte⟩
      exact ⟨y, List.mem_append.mpr (.inl hY), hByte⟩
    rcases (hMember e).mp hE with rfl | ⟨hF, -⟩
    · rcases Nat.lt_or_ge b x.1 with hBefore | hBegun
      · rcases hSpans.first with hSame | ⟨f, hF, hOverlap, hSame⟩
        · omega
        · exact hOld f hF (by omega) (by unfold Overlap at hOverlap; omega)
      · rcases Nat.lt_or_ge x.2 b with hBehind | hInside
        · rcases hSpans.last with hSame | ⟨f, hF, hOverlap, hSame⟩
          · omega
          · exact hOld f hF (by unfold Overlap at hOverlap; omega) (by omega)
        · exact ⟨x, by simp, hBegun, hInside⟩
    · exact hOld e hF hStart hEnd
  · intro e hE y hY z hZ hInY hInZ
    rcases (hMember e).mp hE with rfl | ⟨hF, hOutside⟩
    · -- all that begin in the merged interval are linked to the new one
      have hTo : ∀ w ∈ xs ++ [x], (e.1 ≤ w.1 ∧ w.1 ≤ e.2) → Chain (xs ++ [x]) w x := by
        intro w hW hIn
        rcases List.mem_append.mp hW with hOld | hLast
        · rcases hMerged.within w hOld with ⟨f, hF, hWithin⟩
          have hW' := hBytes w hOld
          by_cases hOverlap : Overlap f x
          · exact hMerged.chain hSome hF hOverlap hOld (by omega)
          · have hSides := hSpans.apart hDisjoint hF hOverlap
            omega
        · rw [List.mem_singleton.mp hLast]
          exact .refl
      exact (hTo y hY hInY).trans (hTo z hZ hInZ).symm
    · -- the new interval does not begin in the others
      have hOld : ∀ w ∈ xs ++ [x], (e.1 ≤ w.1 ∧ w.1 ≤ e.2) → w ∈ xs := by
        intro w hW hIn
        rcases List.mem_append.mp hW with hOld | hLast
        · exact hOld
        · rw [List.mem_singleton.mp hLast] at hIn
          refine absurd ?_ hOutside
          unfold Overlap
          omega
      exact (hMerged.linked e hF y (hOld y hY hInY) z (hOld z hZ hInZ)
        hInY hInZ).mono fun w hW => List.mem_append.mpr (.inl hW)

end IntervalSet

end FortranIR
