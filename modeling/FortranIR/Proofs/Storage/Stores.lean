import FortranIR.Proofs.Edit
import FortranIR.Proofs.Storage.Intervals
import FortranIR.Storage.Variable

/-
  This file proves what the stores of a scope are.

  Objects that are not in a common block are linked if a chain
  of them leads from one to the other, where the storage of each
  object overlaps that of the next one. The stores are the
  classes of linked objects with two or more members.

  Main declarations:
    * `Symbol.Covers`
    * `Scope.stores_shared`
-/

namespace FortranIR

variable {s : Symbol} {id : SymbolId}
variable {symbols : List (SymbolId × Symbol)} {set : IntervalSet}

----
-- Storage of symbols
----

namespace Symbol

/-
  The byte belongs to the storage of a symbol. A symbol without
  a size has one byte.
-/
def Covers (s : Symbol) (b : Nat) : Prop := s.offset ≤ b ∧ b < s.offset + max s.size 1

instance (s : Symbol) (b : Nat) : Decidable (s.Covers b) := inferInstanceAs (Decidable (_ ∧ _))

/- The first and the last byte of the storage of a symbol. -/
def interval (s : Symbol) : Nat × Nat := (s.offset, s.offset + max s.size 1 - 1)

theorem covers_iff : s.Covers b ↔ s.interval.1 ≤ b ∧ b ≤ s.interval.2 := by
  unfold Covers interval
  omega

theorem interval_le (s : Symbol) : s.interval.1 ≤ s.interval.2 := by
  unfold interval
  omega

end Symbol

namespace Scope

/- The storage of two objects that may overlap does overlap. -/
def Overlapping (scope : Scope) (i j : SymbolId) : Prop := ∃ s t b,
    scope.symbols[i]? = some s ∧ scope.symbols[j]? = some t ∧
    s.mayOverlap = true ∧ t.mayOverlap = true ∧ s.Covers b ∧ t.Covers b

/- A chain of overlapping objects leads from one to the other. -/
def Linked (scope : Scope) : SymbolId → SymbolId → Prop := Relation.TransGen scope.Overlapping

/- The storage of all symbols can be addressed. -/
def Fits (scope : Scope) : Prop := ∀ s ∈ scope.symbols, s.offset + max s.size 1 < 2 ^ 64

end Scope

/- The byte belongs to a store. -/
def Store.Covers (t : Store) (b : Nat) : Prop := t.offset ≤ b ∧ b < t.offset + t.size

instance (t : Store) (b : Nat) : Decidable (t.Covers b) := inferInstanceAs (Decidable (_ ∧ _))

/-
  The stores of a scope are the classes of linked objects with
  two or more members. Each store is the union of its members,
  and the stores are disjoint, in the order of their offsets.
-/
structure Scope.Shared (scope : Scope) (stores : List Store) : Prop where
  together : ∀ i j, i ≠ j → ((∃ t ∈ stores, i ∈ t.members ∧ j ∈ t.members) ↔ scope.Linked i j)
  classes : ∀ t ∈ stores, t.members.Nodup ∧ 2 ≤ t.members.length ∧
      ∀ i ∈ t.members, ∀ j, j ∈ t.members ↔ scope.Linked i j
  bytes : ∀ t ∈ stores, ∀ b, t.Covers b ↔
      ∃ i ∈ t.members, ∃ s, scope.symbols[i]? = some s ∧ s.Covers b
  ordered : stores.Pairwise fun s t => s.offset + s.size ≤ t.offset
  static : ∀ t ∈ stores, t.isGlobal = true ↔ ∃ i ∈ t.members, ∃ s, scope.symbols[i]? = some s ∧
        (s.attrs.saved = true ∨ s.isInitialized = true)

----
-- Symbols by name
----

namespace Scope

variable {scope : Scope}

theorem byName_perm (scope : Scope) : scope.byName.Perm
      (scope.symbols.zipIdx.map fun e => (e.2, e.1)) := List.mergeSort_perm _ _

theorem mem_byName_iff : (i, s) ∈ scope.byName ↔ scope.symbols[i]? = some s := by
  rw [scope.byName_perm.mem_iff, List.mem_map]
  constructor
  · rintro ⟨⟨t, k⟩, hMember, hSame⟩
    cases hSame
    exact List.mem_zipIdx_iff_getElem?.mp hMember
  · intro hSymbol
    exact ⟨(s, i), List.mem_zipIdx_iff_getElem?.mpr hSymbol, rfl⟩

theorem byName_nodup (scope : Scope) : (scope.byName.map Prod.fst).Nodup := by
  rw [(scope.byName_perm.map Prod.fst).nodup_iff, List.map_map]
  have hPlaces : scope.symbols.zipIdx.map (Prod.fst ∘ fun e : Symbol × Nat => (e.2, e.1)) =
        List.range' 0 scope.symbols.length := by
    rw [← List.zipIdx_map_snd 0 scope.symbols]
    rfl
  rw [hPlaces]
  exact List.nodup_range'

/- The objects that may share storage, in the order of their names. -/
def candidates (scope : Scope) : List (SymbolId × Symbol) :=
  scope.byName.filter fun e => e.2.mayOverlap

theorem mem_candidates_iff : (i, s) ∈ scope.candidates ↔
      scope.symbols[i]? = some s ∧ s.mayOverlap = true := by
  rw [candidates, List.mem_filter, mem_byName_iff]

theorem candidates_nodup (scope : Scope) : (scope.candidates.map Prod.fst).Nodup :=
  scope.byName_nodup.sublist (List.filter_sublist.map Prod.fst)

----
-- Intervals and groups
----

theorem foldlM_merged (hFits : ∀ p ∈ symbols, p.2.offset + max p.2.size 1 < 2 ^ 64)
    (hBytes : ∀ x ∈ xs, x.1 ≤ x.2) (hMerged : IntervalSet.Merged xs set) :
    ∃ set', symbols.foldlM (fun set (p : SymbolId × Symbol) => do
            let next ← checkedAdd p.2.offset (max p.2.size 1)
            return set.merge p.2.offset (next - 1))
          set = .ok set' ∧ IntervalSet.Merged (xs ++ symbols.map fun p => p.2.interval) set' := by
  induction symbols generalizing set xs with
  | nil => exact ⟨set, rfl, by simpa using hMerged⟩
  | cons p rest ih =>
    have hStep : (do
          let next ← checkedAdd p.2.offset (max p.2.size 1)
          return set.merge p.2.offset (next - 1) : Except Fault IntervalSet) =
          .ok (set.merge p.2.interval.1 p.2.interval.2) := by
      rw [checkedAdd, if_pos (hFits p (.head _))]
      rfl
    rcases ih (fun q hIn => hFits q (.tail p hIn)) (fun x hIn => by
        rcases List.mem_append.mp hIn with hOld | hNew
        · exact hBytes x hOld
        · rw [List.mem_singleton.mp hNew]
          exact p.2.interval_le)
      (hMerged.merge hBytes p.2.interval_le) with ⟨set', hRun, hMerged'⟩
    refine ⟨set', ?_, ?_⟩
    · rw [List.foldlM_cons, hStep]
      exact hRun
    · rw [List.map_cons, List.append_cons]
      exact hMerged'

theorem intervals_merged (hFits : ∀ p ∈ symbols, p.2.offset + max p.2.size 1 < 2 ^ 64) :
    ∃ set, intervals symbols = .ok set ∧
      IntervalSet.Merged (symbols.map fun p => p.2.interval) set := by
  have hBytes : ∀ x ∈ ([] : List (Nat × Nat)), x.1 ≤ x.2 := List.forall_mem_nil _
  exact foldlM_merged hFits hBytes .empty

/- The symbols that begin in the interval with a first byte. -/
def groupAt (set : IntervalSet) (symbols : List (SymbolId × Symbol))
    (first : Nat) : List (SymbolId × Symbol) :=
  symbols.filter fun p => (set.find? p.2.offset).map Prod.fst == some first

theorem sharing_sorted (set : IntervalSet) (symbols : List (SymbolId × Symbol)) :
    Keyed.Sorted (sharing set symbols) := by
  refine List.foldlRecOn symbols _ List.Pairwise.nil fun groups hSorted p _ => ?_
  dsimp only
  split
  · exact hSorted
  · exact hSorted.insert _ _

/- The group of each interval that something begins in. -/
theorem find?_sharing (set : IntervalSet) (symbols : List (SymbolId × Symbol)) (first : Nat) :
    (sharing set symbols).find? first = if groupAt set symbols first = [] then none
      else
        some ((groupAt set symbols first).map Prod.fst,
          (groupAt set symbols first).any fun p => p.2.isGlobal) := by
  induction symbols using List.reverseRecOn with
  | nil => rfl
  | append_singleton init p ih =>
    rcases p with ⟨id, s⟩
    have hGroup : groupAt set (init ++ [(id, s)]) first = groupAt set init first ++
            if (set.find? s.offset).map Prod.fst = some first then [(id, s)] else [] := by
      rw [groupAt, List.filter_append, ← groupAt, List.filter_singleton]
      by_cases hKey : (set.find? s.offset).map Prod.fst = some first
      · simp [hKey]
      · rw [beq_false_of_ne hKey, if_neg hKey, cond_false]
    rw [hGroup, sharing, List.foldl_append, ← sharing, List.foldl_cons, List.foldl_nil]
    dsimp only
    cases hFind : set.find? s.offset with
    | none => simpa using ih
    | some e =>
      rcases e with ⟨k, hi⟩
      simp only [Option.map_some, Option.some.injEq, Keyed.adjust, Keyed.find?_insert]
      by_cases hSame : first = k
      · subst hSame
        rw [ih]
        by_cases hEmpty : groupAt set init first = []
        · simp [hEmpty]
        · simp [hEmpty]
      · rw [if_neg hSame, if_neg (Ne.symm hSame), List.append_nil]
        exact ih

/- The store of an interval. -/
def storeOf (set : IntervalSet) (symbols : List (SymbolId × Symbol)) (e : Nat × Nat) : Store where
  offset := e.1
  size := e.2 - e.1 + 1
  isGlobal := (groupAt set symbols e.1).any fun p => p.2.isGlobal
  members := (groupAt set symbols e.1).map Prod.fst

/- The stores of a set of intervals, as they are listed. -/
def listStores (set : IntervalSet) (symbols : List (SymbolId × Symbol)) : List Store :=
  (sharing set symbols).filterMap fun (first, members, isGlobal) =>
    if members.length < 2 then none
    else (set.find? first).map fun (lo, hi) => ⟨lo, hi - lo + 1, isGlobal, members⟩

section

variable (hDisjoint : set.Disjoint)
include hDisjoint

theorem mem_groupAt_iff (hE : e ∈ set.ends) :
    p ∈ groupAt set symbols e.1 ↔ p ∈ symbols ∧ e.1 ≤ p.2.offset ∧ p.2.offset ≤ e.2 := by
  rw [groupAt, List.mem_filter, beq_iff_eq, Option.map_eq_some_iff]
  refine and_congr_right fun _ => ⟨?_, ?_⟩
  · rintro ⟨f, hFind, hKey⟩
    rcases (IntervalSet.find?_eq_some_iff hDisjoint).mp hFind with ⟨hF, hIn⟩
    rw [hDisjoint.sorted.eq_of_key_eq hE hF hKey.symm]
    exact hIn
  · intro hIn
    exact ⟨e, (IntervalSet.find?_eq_some_iff hDisjoint).mpr ⟨hE, hIn⟩, rfl⟩

/- Each listed group is that of an interval of the set. -/
theorem entry_of_sharing
    (hMember : g ∈ sharing set symbols) : ∃ e ∈ set.ends, g.1 = e.1 ∧ set.find? g.1 = some e ∧
      g.2 = ((groupAt set symbols e.1).map Prod.fst,
        (groupAt set symbols e.1).any fun p => p.2.isGlobal) := by
  rcases g with ⟨first, value⟩
  have hFound := (sharing_sorted set symbols).find?_eq_some_iff.mpr hMember
  rw [find?_sharing] at hFound
  split at hFound
  · cases hFound
  · rename_i hSome
    rcases List.exists_mem_of_ne_nil _ hSome with ⟨p, hP⟩
    rw [groupAt, List.mem_filter, beq_iff_eq, Option.map_eq_some_iff] at hP
    rcases hP with ⟨-, e, hFind, rfl⟩
    rw [Option.some.injEq] at hFound
    rcases (IntervalSet.find?_eq_some_iff hDisjoint).mp hFind with ⟨hE, -⟩
    refine ⟨e, hE, rfl, ?_, hFound.symm⟩
    exact (IntervalSet.find?_eq_some_iff hDisjoint).mpr ⟨hE, .refl, hDisjoint.nonempty e hE⟩

theorem mem_listStores_iff : t ∈ listStores set symbols ↔
      ∃ e ∈ set.ends, 2 ≤ (groupAt set symbols e.1).length ∧ t = storeOf set symbols e := by
  rw [listStores, List.mem_filterMap]
  constructor
  · rintro ⟨⟨first, members, isGlobal⟩, hMember, hStore⟩
    rcases entry_of_sharing hDisjoint hMember with ⟨e, hE, hFirst, hFind, hGroup⟩
    cases hGroup
    simp only [] at hStore hFind
    rw [List.length_map, hFind] at hStore
    split at hStore
    · cases hStore
    · rename_i hTwo
      cases hStore
      exact ⟨e, hE, Nat.le_of_not_lt hTwo, rfl⟩
  · rintro ⟨e, hE, hTwo, rfl⟩
    have hSome : groupAt set symbols e.1 ≠ [] := by
      intro hEmpty
      rw [hEmpty] at hTwo
      exact absurd hTwo (by simp)
    refine ⟨(e.1, (groupAt set symbols e.1).map Prod.fst,
      (groupAt set symbols e.1).any fun p => p.2.isGlobal), ?_, ?_⟩
    · rw [← (sharing_sorted set symbols).find?_eq_some_iff, find?_sharing, if_neg hSome]
    · have hFind : set.find? e.1 = some e := (IntervalSet.find?_eq_some_iff hDisjoint).mpr
          ⟨hE, .refl, hDisjoint.nonempty e hE⟩
      simp only [List.length_map, hFind]
      rw [if_neg (Nat.not_lt_of_le hTwo)]
      rfl

theorem listStores_ordered : (listStores set symbols).Pairwise fun s t =>
      s.offset + s.size ≤ t.offset := by
  rw [listStores, List.pairwise_filterMap]
  refine (sharing_sorted set symbols).imp_of_mem ?_
  rintro ⟨k, ms, g⟩ ⟨k', ms', g'⟩ hG hG' hLess s hS t hT
  rcases entry_of_sharing hDisjoint hG with ⟨e, hE, hFirst, hFind, -⟩
  rcases entry_of_sharing hDisjoint hG' with ⟨f, hF, hFirst', hFind', -⟩
  simp only [] at hS hT hFind hFind' hFirst hFirst' hLess
  rw [hFind] at hS
  rw [hFind'] at hT
  split at hS
  · cases hS
  · split at hT
    · cases hT
    · cases hS
      cases hT
      have hApart := hDisjoint.apart e hE f hF (by omega)
      simp only []
      omega

end

----
-- Classes
----

theorem overlapping_iff (hI : (i, s) ∈ scope.candidates)
    (hJ : (j, t) ∈ scope.candidates) :
    scope.Overlapping i j ↔ IntervalSet.Overlap s.interval t.interval := by
  rw [mem_candidates_iff] at hI hJ
  constructor
  · rintro ⟨s', t', b, hS, hT, -, -, hB, hB'⟩
    rw [hI.1, Option.some.injEq] at hS
    rw [hJ.1, Option.some.injEq] at hT
    subst hS hT
    rw [Symbol.covers_iff] at hB hB'
    unfold IntervalSet.Overlap
    omega
  · intro hOverlap
    have hS := s.interval_le
    have hT := t.interval_le
    unfold IntervalSet.Overlap at hOverlap
    refine ⟨s, t, max s.interval.1 t.interval.1, hI.1, hJ.1, hI.2, hJ.2, ?_, ?_⟩
    · rw [Symbol.covers_iff]
      omega
    · rw [Symbol.covers_iff]
      omega

/- What overlaps something is an object that may overlap. -/
theorem Overlapping.candidates (hOverlapping : scope.Overlapping i j) :
    (∃ s, (i, s) ∈ scope.candidates) ∧ ∃ t, (j, t) ∈ scope.candidates := by
  rcases hOverlapping with ⟨s, t, b, hI, hJ, hS, hT, -⟩
  exact ⟨⟨s, mem_candidates_iff.mpr ⟨hI, hS⟩⟩, ⟨t, mem_candidates_iff.mpr ⟨hJ, hT⟩⟩⟩

/- A chain of storage is a chain of objects. -/
theorem linked_of_chain (hChain :
      IntervalSet.Chain (scope.candidates.map fun p => p.2.interval) x y)
    (hI : (i, s) ∈ scope.candidates) (hS : s.interval = x) (hJ : (j, t) ∈ scope.candidates)
    (hT : t.interval = y) : scope.Linked i j := by
  induction hChain generalizing j t with
  | refl =>
    refine .single ((overlapping_iff hI hJ).mpr ?_)
    rw [hT, ← hS]
    exact ⟨s.interval_le, s.interval_le⟩
  | tail _ hStep ih =>
    rcases hStep with ⟨hMid, -, hOverlap⟩
    rcases List.mem_map.mp hMid with ⟨⟨k, r⟩, hK, hR⟩
    refine (ih hK hR).tail ((overlapping_iff hK hJ).mpr ?_)
    rw [hT, hR]
    exact hOverlap

section

variable (hMerged :
    IntervalSet.Merged (scope.candidates.map fun p => p.2.interval) set)
include hMerged

/- Linked objects begin in the same interval. -/
theorem Linked.same_interval (hE : e ∈ set.ends) (hLinked : scope.Linked i j)
    (hI : (i, s) ∈ scope.candidates) (hS : e.1 ≤ s.offset ∧ s.offset ≤ e.2) :
    ∃ t, (j, t) ∈ scope.candidates ∧ e.1 ≤ t.offset ∧ t.offset ≤ e.2 := by
  -- an object that begins in an interval lies in it
  have hInside : ∀ k r, (k, r) ∈ scope.candidates → e.1 ≤ r.offset →
        r.offset ≤ e.2 → r.interval.2 ≤ e.2 := by
    intro k r hK hFirst hLast
    rcases hMerged.within _ (List.mem_map_of_mem hK) with ⟨f, hF, hWithin⟩
    have hR := r.interval_le
    rw [hMerged.disjoint.eq_of_common hE hF ⟨hFirst, hLast⟩ ⟨hWithin.1, Nat.le_trans hR hWithin.2⟩]
    exact hWithin.2
  have hStep : ∀ k l r, scope.Overlapping k l → (k, r) ∈ scope.candidates →
        (e.1 ≤ r.offset ∧ r.offset ≤ e.2) →
        ∃ t, (l, t) ∈ scope.candidates ∧ e.1 ≤ t.offset ∧ t.offset ≤ e.2 := by
    intro k l r hOver hK hIn
    rcases hOver.candidates.2 with ⟨t, hL⟩
    refine ⟨t, hL, ?_⟩
    have hOverlap := (overlapping_iff hK hL).mp hOver
    rcases hMerged.within _ (List.mem_map_of_mem hL) with ⟨f, hF, hWithin⟩
    have hEnd := hInside k r hK hIn.1 hIn.2
    have hR := r.interval_le
    have hT := t.interval_le
    unfold IntervalSet.Overlap at hOverlap
    simp only [Symbol.interval] at hOverlap hWithin hEnd hR hT
    have hSame : e = f := hMerged.disjoint.eq_of_common hE hF
        (b := max r.offset t.offset) (by omega) (by omega)
    rw [hSame]
    omega
  induction hLinked with
  | single hOver => exact hStep i _ s hOver hI hS
  | tail _ hOver ih =>
    rcases ih with ⟨r, hK, hIn⟩
    exact hStep _ _ r hOver hK hIn

/- The members of a group are linked to each other, and to no others. -/
theorem mem_group_iff_linked (hE : e ∈ set.ends)
    (hI : i ∈ (groupAt set scope.candidates e.1).map Prod.fst) :
    j ∈ (groupAt set scope.candidates e.1).map Prod.fst ↔ scope.Linked i j := by
  have hMember : ∀ k, k ∈ (groupAt set scope.candidates e.1).map Prod.fst ↔
        ∃ r, (k, r) ∈ scope.candidates ∧ e.1 ≤ r.offset ∧ r.offset ≤ e.2 := by
    intro k
    rw [List.mem_map]
    constructor
    · rintro ⟨⟨k', r⟩, hIn, rfl⟩
      exact ⟨r, (mem_groupAt_iff hMerged.disjoint hE).mp hIn⟩
    · rintro ⟨r, hIn⟩
      exact ⟨(k, r), (mem_groupAt_iff hMerged.disjoint hE).mpr hIn, rfl⟩
  rcases (hMember i).mp hI with ⟨s, hS, hInS⟩
  rw [hMember j]
  constructor
  · rintro ⟨t, hT, hInT⟩
    exact linked_of_chain (hMerged.linked e hE _ (List.mem_map_of_mem hS) _
        (List.mem_map_of_mem hT) hInS hInT) hS rfl hT rfl
  · intro hLinked
    exact hLinked.same_interval hMerged hE hS hInS

/- The stores that are listed are the classes of linked objects. -/
theorem listStores_shared : scope.Shared (listStores set scope.candidates) where
  together i j hOther := by
    constructor
    · rintro ⟨t, hT, hI, hJ⟩
      rcases (mem_listStores_iff hMerged.disjoint).mp hT with ⟨e, hE, -, rfl⟩
      exact (mem_group_iff_linked hMerged hE hI).mp hJ
    · intro hLinked
      have hFirst : ∃ s, (i, s) ∈ scope.candidates := by
        rcases Relation.TransGen.head'_iff.mp hLinked with ⟨k, hOver, -⟩
        exact hOver.candidates.1
      rcases hFirst with ⟨s, hS⟩
      rcases hMerged.within _ (List.mem_map_of_mem hS) with ⟨e, hE, hWithin⟩
      have hBytes := s.interval_le
      have hI : i ∈ (groupAt set scope.candidates e.1).map Prod.fst := List.mem_map.mpr ⟨(i, s),
          (mem_groupAt_iff hMerged.disjoint hE).mpr
            ⟨hS, hWithin.1, Nat.le_trans hBytes hWithin.2⟩, rfl⟩
      have hJ := (mem_group_iff_linked hMerged hE hI).mpr hLinked
      refine ⟨storeOf set scope.candidates e,
        (mem_listStores_iff hMerged.disjoint).mpr ⟨e, hE, ?_, rfl⟩, hI, hJ⟩
      -- two different objects are two members
      rw [← List.length_map Prod.fst]
      rcases List.mem_iff_getElem.mp hI with ⟨m, hM, rfl⟩
      rcases List.mem_iff_getElem.mp hJ with ⟨n, hN, rfl⟩
      have hPlaces : m ≠ n := by
        rintro rfl
        exact hOther rfl
      omega
  classes t hT := by
    rcases (mem_listStores_iff hMerged.disjoint).mp hT with ⟨e, hE, hTwo, rfl⟩
    refine ⟨?_, by rwa [storeOf, List.length_map], ?_⟩
    · exact scope.candidates_nodup.sublist (List.filter_sublist.map Prod.fst)
    · exact fun i hI j => mem_group_iff_linked hMerged hE hI
  bytes t hT b := by
    rcases (mem_listStores_iff hMerged.disjoint).mp hT with ⟨e, hE, _, rfl⟩
    have hSome := hMerged.disjoint.nonempty e hE
    have hCovers : (storeOf set scope.candidates e).Covers b ↔ e.1 ≤ b ∧ b ≤ e.2 := by
      unfold Store.Covers storeOf
      simp only []
      omega
    rw [hCovers]
    constructor
    · rintro ⟨hFirst, hLast⟩
      rcases hMerged.covered e hE b hFirst hLast with ⟨x, hX, hIn⟩
      rcases List.mem_map.mp hX with ⟨⟨i, s⟩, hS, rfl⟩
      rcases hMerged.within _ hX with ⟨f, hF, hWithin⟩
      have hSame : e = f := hMerged.disjoint.eq_of_common hE hF ⟨hFirst, hLast⟩ (by omega)
      subst hSame
      have hBytes := s.interval_le
      refine ⟨i, List.mem_map.mpr ⟨(i, s), (mem_groupAt_iff hMerged.disjoint hE).mpr
          ⟨hS, hWithin.1, Nat.le_trans hBytes hWithin.2⟩, rfl⟩, s,
        (mem_candidates_iff.mp hS).1, Symbol.covers_iff.mpr hIn⟩
    · rintro ⟨i, hI, s, hS, hByte⟩
      rcases List.mem_map.mp hI with ⟨⟨k, r⟩, hR, rfl⟩
      rcases (mem_groupAt_iff hMerged.disjoint hE).mp hR with ⟨hListed, hIn⟩
      rw [(mem_candidates_iff.mp hListed).1, Option.some.injEq] at hS
      subst hS
      rcases hMerged.within _ (List.mem_map_of_mem hListed) with ⟨f, hF, hWithin⟩
      have hBytes := r.interval_le
      have hSame : e = f := hMerged.disjoint.eq_of_common hE hF hIn
          ⟨hWithin.1, Nat.le_trans hBytes hWithin.2⟩
      subst hSame
      rw [Symbol.covers_iff] at hByte
      exact ⟨Nat.le_trans hWithin.1 hByte.1, Nat.le_trans hByte.2 hWithin.2⟩
  ordered := listStores_ordered hMerged.disjoint
  static t hT := by
    rcases (mem_listStores_iff hMerged.disjoint).mp hT with ⟨e, hE, -, rfl⟩
    rw [storeOf, List.any_eq_true]
    simp only [List.mem_map]
    constructor
    · rintro ⟨⟨i, s⟩, hS, hGlobal⟩
      have hListed := ((mem_groupAt_iff hMerged.disjoint hE).mp hS).1
      rcases mem_candidates_iff.mp hListed with ⟨hAt, hMay⟩
      refine ⟨i, ⟨(i, s), hS, rfl⟩, s, hAt, ?_⟩
      -- an object that may overlap is in no common block
      have hCommon : s.attrs.inCommon = false := by
        unfold Symbol.mayOverlap at hMay
        split at hMay
        · simpa using hMay
        · cases hMay
      simpa [Symbol.isGlobal, hCommon] using hGlobal
    · rintro ⟨i, ⟨⟨k, r⟩, hR, rfl⟩, s, hAt, hStatic⟩
      have hListed := ((mem_groupAt_iff hMerged.disjoint hE).mp hR).1
      rw [(mem_candidates_iff.mp hListed).1, Option.some.injEq] at hAt
      subst hAt
      refine ⟨(k, r), hR, ?_⟩
      rcases hStatic with hSaved | hInit
      · simp [Symbol.isGlobal, hSaved]
      · simp [Symbol.isGlobal, hInit]

end

/- The stores of a scope with equivalences. -/
theorem stores_shared (hFits : scope.Fits) (hSome : scope.equivalences ≠ []) :
    ∃ stores, scope.stores = .ok stores ∧ scope.Shared stores := by
  have hBytes : ∀ p ∈ scope.candidates, p.2.offset + max p.2.size 1 < 2 ^ 64 := by
    rintro ⟨i, s⟩ hMember
    exact hFits s (List.mem_of_getElem? (mem_candidates_iff.mp hMember).1)
  rcases intervals_merged hBytes with ⟨set, hRun, hMerged⟩
  refine ⟨listStores set scope.candidates, ?_, listStores_shared hMerged⟩
  unfold stores
  rw [if_neg (by simpa using hSome)]
  change (intervals scope.candidates >>= _) = _
  rw [hRun]
  rfl

----
-- Lookups
----

variable {stores : List Store}

/- The members of a store lie in it. -/
theorem Shared.covers (hShared : scope.Shared stores) (hT : t ∈ stores) (hMember : id ∈ t.members)
    (hSymbol : scope.symbols[id]? = some s) : t.Covers s.offset := by
  refine (hShared.bytes t hT s.offset).mpr ⟨id, hMember, s, hSymbol, ?_⟩
  unfold Symbol.Covers
  omega

/- No byte belongs to two stores. -/
theorem Shared.eq_of_covers (hShared : scope.Shared stores) (hT : t ∈ stores)
    (hU : u ∈ stores) (hInT : t.Covers b) (hInU : u.Covers b) : t = u := by
  unfold Store.Covers at hInT hInU
  let Apart (s t : Store) : Prop := s.offset + s.size ≤ t.offset ∨ t.offset + t.size ≤ s.offset
  have hSymm : Std.Symm Apart := ⟨fun _ _ hApart => hApart.symm⟩
  have hApart : stores.Pairwise Apart := hShared.ordered.imp fun hLe => .inl hLe
  by_contra hOther
  rcases hApart.forall hT hU hOther with hLe | hLe
  · omega
  · omega

theorem Shared.storeAt (hShared : scope.Shared stores) (hT : t ∈ stores) (hMember : id ∈ t.members)
    (hSymbol : scope.symbols[id]? = some s) : storeAt stores s.offset = .ok t.offset := by
  have hCovers := hShared.covers hT hMember hSymbol
  rw [Scope.storeAt, orElse_eq_ok_iff, Option.map_eq_some_iff]
  cases hFind : stores.find? (fun s' =>
      decide (s'.offset ≤ s.offset ∧ s.offset < s'.offset + s'.size)) with
  | none =>
    have hNone := List.find?_eq_none.mp hFind t hT
    exact absurd (decide_eq_true hCovers) hNone
  | some u =>
    have hU : u.Covers s.offset := by
      have hFound := List.find?_some hFind
      exact of_decide_eq_true hFound
    exact ⟨u, rfl, congrArg Store.offset
      (hShared.eq_of_covers (List.mem_of_find?_eq_some hFind) hT hU hCovers)⟩

end Scope

end FortranIR
