import FortranIR.Proofs.Storage.Order

/-
  This file proves that the stores of a scope are determined by
  the bytes of its objects, and that the variables of the scope
  are placed in them.

  Main declarations:
    * `Scope.Renamed`
    * `Scope.overlaps_shared`
-/

namespace FortranIR

variable {i : SymbolId} {scope : Scope} {α : Type} {s : Symbol} {stores : List Store}
variable {t : Store}

----
-- Scopes with other names
----

/- A symbol without its name. -/
def Symbol.unnamed (s : Symbol) : Symbol := { s with name := "" }

theorem Symbol.eq_of_unnamed (f : Symbol → α) (hNames : ∀ s : Symbol, f s.unnamed = f s)
    {t : Symbol} (hSame : s.unnamed = t.unnamed) : f s = f t := by rw [← hNames s, hSame, hNames t]

namespace Scope

/- The symbols of two scopes differ in their names only. -/
def Renamed (scope other : Scope) : Prop :=
  scope.symbols.map Symbol.unnamed = other.symbols.map Symbol.unnamed

instance (scope other : Scope) : Decidable (scope.Renamed other) :=
  inferInstanceAs (Decidable (_ = _))

namespace Renamed

variable {other : Scope}

section

variable (hRenamed : scope.Renamed other)
include hRenamed

theorem symm : other.Renamed scope := Eq.symm hRenamed

theorem symbol (hSymbol : scope.symbols[i]? = some s) :
    ∃ t, other.symbols[i]? = some t ∧ s.unnamed = t.unnamed := by
  have hAt : (other.symbols.map Symbol.unnamed)[i]? = some s.unnamed := by
    rw [← show scope.symbols.map Symbol.unnamed = _ from hRenamed, List.getElem?_map, hSymbol]
    rfl
  rw [List.getElem?_map, Option.map_eq_some_iff] at hAt
  rcases hAt with ⟨t, hT, hSame⟩
  exact ⟨t, hT, hSame.symm⟩

/- What names say nothing about holds for both scopes. -/
theorem exists_iff (p : Symbol → Prop) (hNames : ∀ s : Symbol, p s.unnamed = p s) (i : SymbolId) :
    (∃ s, scope.symbols[i]? = some s ∧ p s) ↔ ∃ s, other.symbols[i]? = some s ∧ p s := by
  constructor
  · rintro ⟨s, hS, hHolds⟩
    rcases hRenamed.symbol hS with ⟨t, hT, hSame⟩
    exact ⟨t, hT, Symbol.eq_of_unnamed p hNames hSame ▸ hHolds⟩
  · rintro ⟨t, hT, hHolds⟩
    rcases hRenamed.symm.symbol hT with ⟨s, hS, hSame⟩
    exact ⟨s, hS, Symbol.eq_of_unnamed p hNames hSame ▸ hHolds⟩

theorem overlapping (hOver : scope.Overlapping i j) : other.Overlapping i j := by
  rcases hOver with ⟨s, t, b, hS, hT, hMayS, hMayT, hInS, hInT⟩
  rcases (hRenamed.exists_iff (fun s => s.mayOverlap = true ∧ s.Covers b) (fun _ => rfl) i).mp
      ⟨s, hS, hMayS, hInS⟩ with ⟨s', hS', hMayS', hInS'⟩
  rcases (hRenamed.exists_iff (fun s => s.mayOverlap = true ∧ s.Covers b) (fun _ => rfl) j).mp
      ⟨t, hT, hMayT, hInT⟩ with ⟨t', hT', hMayT', hInT'⟩
  exact ⟨s', t', b, hS', hT', hMayS', hMayT', hInS', hInT'⟩

theorem linked_iff : scope.Linked i j ↔ other.Linked i j := ⟨fun hLinked =>
      hLinked.lift id fun _ _ => hRenamed.overlapping, fun hLinked =>
      hLinked.lift id fun _ _ => hRenamed.symm.overlapping⟩

theorem fits (hFits : scope.Fits) : other.Fits := by
  intro t hT
  rcases List.mem_iff_getElem?.mp hT with ⟨i, hAt⟩
  rcases hRenamed.symm.symbol hAt with ⟨s, hS, hSame⟩
  rw [Symbol.eq_of_unnamed (fun s => s.offset + max s.size 1) (fun _ => rfl) hSame]
  exact hFits s (List.mem_of_getElem? hS)

/- The stores of one scope are stores of the other one. -/
theorem shared (hShared : scope.Shared stores) : other.Shared stores where
  together i j hOther := by rw [hShared.together i j hOther, hRenamed.linked_iff]
  classes t hT := by
    rcases hShared.classes t hT with ⟨hNodup, hTwo, hClass⟩
    refine ⟨hNodup, hTwo, ?_⟩
    intro i hI j
    rw [hClass i hI j, hRenamed.linked_iff]
  bytes t hT b := by
    rw [hShared.bytes t hT b]
    refine exists_congr fun i => and_congr_right fun _ => ?_
    exact hRenamed.exists_iff (fun s => s.Covers b) (fun _ => rfl) i
  ordered := hShared.ordered
  static t hT := by
    rw [hShared.static t hT]
    refine exists_congr fun i => and_congr_right fun _ => ?_
    exact hRenamed.exists_iff (fun s => s.attrs.saved = true ∨ s.isInitialized = true)
      (fun _ => rfl) i

end

end Renamed

end Scope

----
-- Stores are determined
----

/- Two stores are the same up to the order of their members. -/
structure Store.Alike (t u : Store) : Prop where
  offset : t.offset = u.offset
  size : t.size = u.size
  isGlobal : t.isGlobal = u.isGlobal
  members : t.members.Perm u.members

/- Related items of lists in the order of their keys are in step. -/
theorem forall₂_of_increasing {r : α → α → Prop} {key : α → Nat}
    (hKeys : ∀ a b, r a b → key a = key b) {xs ys : List α}
    (hXs : xs.Pairwise fun a b => key a < key b) (hYs : ys.Pairwise fun a b => key a < key b)
    (hRight : ∀ x ∈ xs, ∃ y ∈ ys, r x y) (hLeft : ∀ y ∈ ys, ∃ x ∈ xs, r x y) :
    List.Forall₂ r xs ys := by
  induction xs generalizing ys with
  | nil =>
    cases ys with
    | nil => exact .nil
    | cons y ys =>
      rcases hLeft y (.head _) with ⟨x, hX, -⟩
      cases hX
  | cons x xs ih =>
    cases ys with
    | nil =>
      rcases hRight x (.head _) with ⟨y, hY, -⟩
      cases hY
    | cons y ys =>
      rw [List.pairwise_cons] at hXs hYs
      rcases hRight x (.head _) with ⟨y', hY', hXY'⟩
      rcases hLeft y (.head _) with ⟨x', hX', hX'Y⟩
      have hXY : r x y := by
        rcases List.mem_cons.mp hY' with rfl | hLater
        · exact hXY'
        · rcases List.mem_cons.mp hX' with rfl | hLater'
          · exact hX'Y
          · -- each first key would be below the other one
            have hBelow := hYs.1 y' hLater
            have hBelow' := hXs.1 x' hLater'
            rw [← hKeys _ _ hXY', ← hKeys _ _ hX'Y] at hBelow
            omega
      have hFirst := hKeys _ _ hXY
      refine .cons hXY (ih hXs.2 hYs.2 ?_ ?_)
      · intro a hA
        rcases hRight a (.tail x hA) with ⟨b, hB, hAB⟩
        rcases List.mem_cons.mp hB with rfl | hRest
        · have hBelow := hXs.1 a hA
          have hSame := hKeys _ _ hAB
          omega
        · exact ⟨b, hRest, hAB⟩
      · intro b hB
        rcases hLeft b (.tail y hB) with ⟨a, hA, hAB⟩
        rcases List.mem_cons.mp hA with rfl | hRest
        · have hBelow := hYs.1 b hB
          have hSame := hKeys _ _ hAB
          omega
        · exact ⟨a, hRest, hAB⟩

namespace Scope

namespace Shared

section

variable (hShared : scope.Shared stores)
include hShared

/- The members of a store are objects of the scope. -/
theorem symbol (hT : t ∈ stores) (hI : i ∈ t.members) :
    ∃ s, scope.symbols[i]? = some s ∧ s.mayOverlap = true := by
  have hLinked := ((hShared.classes t hT).2.2 i hI i).mp hI
  rcases Relation.TransGen.head'_iff.mp hLinked with ⟨j, hOver, -⟩
  rcases hOver with ⟨s, -, -, hS, -, hMay, -⟩
  exact ⟨s, hS, hMay⟩

/- A store has two different members. -/
theorem exists_members (hT : t ∈ stores) : ∃ i j, i ≠ j ∧ i ∈ t.members ∧ j ∈ t.members := by
  rcases hShared.classes t hT with ⟨hNodup, hTwo, -⟩
  match hMembers : t.members, hNodup, hTwo with
  | i :: j :: rest, hNodup, _ =>
    refine ⟨i, j, ?_, .head _, .tail i (.head _)⟩
    rintro rfl
    exact (List.nodup_cons.mp hNodup).1 (.head _)

/- A store has a byte. -/
theorem size_pos (hT : t ∈ stores) : 0 < t.size := by
  rcases hShared.exists_members hT with ⟨i, -, -, hI, -⟩
  rcases hShared.symbol hT hI with ⟨s, hS, -⟩
  have hCovers := hShared.covers hT hI hS
  unfold Store.Covers at hCovers
  omega

theorem increasing : stores.Pairwise fun t u => t.offset < u.offset := by
  refine hShared.ordered.imp_of_mem ?_
  intro t u hT _ hLe
  have hSize := hShared.size_pos hT
  omega

/- Each store of a list is a store of every other list. -/
theorem exists_alike (hShared' : scope.Shared stores') (hT : t ∈ stores) :
    ∃ u ∈ stores', t.Alike u := by
  rcases hShared.exists_members hT with ⟨i, j, hOther, hI, hJ⟩
  rcases hShared.classes t hT with ⟨hNodup, -, hClass⟩
  rcases (hShared'.together i j hOther).mpr ((hClass i hI j).mp hJ) with ⟨u, hU, hI', -⟩
  rcases hShared'.classes u hU with ⟨hNodup', -, hClass'⟩
  have hMembers : ∀ k, k ∈ t.members ↔ k ∈ u.members := fun k => by rw [hClass i hI, hClass' i hI']
  have hBytes : ∀ b, t.Covers b ↔ u.Covers b := fun b => by
    rw [hShared.bytes t hT, hShared'.bytes u hU]
    exact exists_congr fun k => by rw [hMembers k]
  have hStatic : t.isGlobal = true ↔ u.isGlobal = true := by
    rw [hShared.static t hT, hShared'.static u hU]
    exact exists_congr fun k => by rw [hMembers k]
  -- the first and the last byte of each store are in the other one
  have hSize := hShared.size_pos hT
  have hFirst := hBytes t.offset
  have hFirst' := hBytes u.offset
  have hLast := hBytes (t.offset + t.size - 1)
  have hLast' := hBytes (u.offset + u.size - 1)
  unfold Store.Covers at hFirst hFirst' hLast hLast'
  exact ⟨u, hU, by omega, by omega, Bool.eq_iff_iff.mpr hStatic,
    (List.perm_ext_iff_of_nodup hNodup hNodup').mpr hMembers⟩

/- The stores of a scope are determined, up to the order of members. -/
theorem alike (hShared' : scope.Shared stores') : List.Forall₂ Store.Alike stores stores' := by
  refine forall₂_of_increasing (fun _ _ hAlike => hAlike.offset)
    hShared.increasing hShared'.increasing (fun t hT => hShared.exists_alike hShared' hT) ?_
  intro u hU
  rcases hShared'.exists_alike hShared hU with ⟨t, hT, hAlike⟩
  exact ⟨t, hT, hAlike.offset.symm, hAlike.size.symm, hAlike.isGlobal.symm, hAlike.members.symm⟩

end

end Shared

----
-- Variables in stores
----

/-
  The variables of a scope: the stores, and then all objects.
  Exactly the members of a store are placed in it.
-/
structure Placed (scope : Scope) (stores : List Store) (vars : List Variable)
    (named : List NamedVariable) : Prop where
  listed : vars = stores.map Variable.store ++ named.map Variable.named
  members : ∀ t ∈ stores, ∀ i ∈ t.members, ∃ x ∈ named, x.symbol = i
  inside : ∀ x ∈ named, ∀ t ∈ stores, x.symbol ∈ t.members → x.store = some t.offset
  outside : ∀ x ∈ named, (∀ t ∈ stores, x.symbol ∉ t.members) → x.store = none

theorem isObjectAt_of_mayOverlap (hSymbol : scope.symbols[i]? = some s)
    (hMay : s.mayOverlap = true) : scope.isObjectAt i = true := by
  rw [isObjectAt, hSymbol, Option.map_some]
  unfold Symbol.mayOverlap at hMay
  split at hMay
  · rename_i d hDetails
    rw [hDetails]
  · cases hMay

theorem placed_of_lists (hShared : scope.Shared stores) {named : List NamedVariable}
    (hLists : scope.Lists stores named) :
    scope.Placed stores (stores.map Variable.store ++ named.map Variable.named) named where
  listed := rfl
  members t hT i hI := by
    rcases hShared.symbol hT hI with ⟨s, hS, hMay⟩
    have hObject := isObjectAt_of_mayOverlap hS hMay
    have hListed : i ∈ named.map NamedVariable.symbol :=
      hLists.objects.mem_iff.mpr (List.mem_filter.mpr
        ⟨List.mem_range.mpr (isObjectAt_lt hObject), hObject⟩)
    exact List.mem_map.mp hListed
  inside x hX t hT hMember := by
    rcases hLists.store x hX with ⟨s, hS, hStore⟩
    rcases hShared.storeFor hS with ⟨u, hU, hMember', hFor⟩ | ⟨hNone, -⟩
    · have hSame : t = u := hShared.eq_of_covers hT hU (hShared.covers hT hMember hS)
          (hShared.covers hU hMember' hS)
      subst hSame
      rw [hStore] at hFor
      exact Except.ok.inj hFor
    · exact absurd hMember (hNone t hT)
  outside x hX hNone := by
    rcases hLists.store x hX with ⟨s, hS, hStore⟩
    rcases hShared.storeFor hS with ⟨u, hU, hMember, -⟩ | ⟨-, hFor⟩
    · exact absurd hMember (hNone u hU)
    · rw [hStore] at hFor
      exact Except.ok.inj hFor

/-
  The stores of a scope with equivalences are the classes of
  overlapping objects. The variables are placed in them, and
  other names of the symbols do not change them.
-/
theorem overlaps_shared (hFits : scope.Fits) (hSome : scope.equivalences ≠ []) :
    ∃ stores, scope.stores = .ok stores ∧ scope.Shared stores ∧ (∀ vars, scope.storage = .ok vars →
        ∃ named, scope.Placed stores vars named) ∧
      ((∀ s ∈ scope.symbols, s.details ≠ .derivedType) →
        scope.Resolved → ∃ vars, scope.storage = .ok vars) ∧
      ∀ other, scope.Renamed other → other.equivalences ≠ [] →
        ∃ stores', other.stores = .ok stores' ∧ List.Forall₂ Store.Alike stores stores' := by
  rcases stores_shared hFits hSome with ⟨stores, hStores, hShared⟩
  refine ⟨stores, hStores, hShared, ?_, ?_, ?_⟩
  · intro vars hRun
    rcases storage_eq_ok hRun with ⟨stores', named, hSame, rfl, hLists⟩
    rw [hStores] at hSame
    cases hSame
    exact ⟨named, placed_of_lists hShared hLists⟩
  · intro hPlain hResolved
    rcases orderable_of_fits hFits hPlain hResolved with ⟨stores', hStores', hOrderable⟩
    exact storage_returns hStores' hOrderable
  · intro other hRenamed hSome'
    rcases stores_shared (hRenamed.fits hFits) hSome' with ⟨stores', hStores', hShared'⟩
    exact ⟨stores', hStores', hShared.alike (hRenamed.symm.shared hShared')⟩

/-
  Two objects that are apart, and a third one that overlaps
  both. Only the names of the objects are given.
-/
def bridged (left right bridge : String) : Scope where
  symbols :=
    [ { name := left, details := .object { category := .real },
        offset := 0, size := 8, attrs := { saved := true } },
      { name := right, details := .object { category := .real }, offset := 12, size := 8 },
      { name := bridge, details := .object { category := .real }, offset := 6, size := 8 },
      { name := "k", details := .object { category := .integer }, offset := 20 } ]
  equivalences := [[0, 2], [1, 2]]

theorem overlaps_shared_bridged : (bridged "a" "b" "c").Fits ∧ ∃ stores stores',
        (bridged "a" "b" "c").stores = .ok stores ∧ (bridged "z" "y" "x").stores = .ok stores' ∧
        List.Forall₂ Store.Alike stores stores' ∧ ∃ t ∈ stores, 0 ∈ t.members ∧ 1 ∈ t.members := by
  have hFits : (bridged "a" "b" "c").Fits := by
    unfold Fits
    decide
  rcases overlaps_shared hFits (by decide) with ⟨stores, hStores, hShared, -, -, hNames⟩
  rcases hNames (bridged "z" "y" "x") (by decide) (by decide) with ⟨stores', hStores', hAlike⟩
  refine ⟨hFits, stores, stores', hStores, hStores', hAlike,
    (hShared.together 0 1 (by decide)).mpr ?_⟩
  have hLeft : (bridged "a" "b" "c").Overlapping 0 2 :=
    ⟨_, _, 7, rfl, rfl, rfl, rfl, by decide, by decide⟩
  have hRight : (bridged "a" "b" "c").Overlapping 2 1 :=
    ⟨_, _, 12, rfl, rfl, rfl, rfl, by decide, by decide⟩
  exact .tail (.single hLeft) hRight

end Scope

end FortranIR
