import FortranIR.Proofs.Storage.Stores

/-
  This file proves that the variables of a scope are listed once
  each, and in an order in which they can be allocated.

  The depths of symbols come from a traversal of the references
  between declarations. A symbol whose declaration refers to
  itself, directly or not, is met again while it is visited.
  Without such symbols, the depth of an object is the height of
  the references below it, whichever symbol is visited first.

  Main declarations:
    * `Scope.referencesAt`, `Scope.Acyclic`, `Scope.Resolved`
    * `Scope.storage_ordered`
-/

namespace FortranIR

variable {fuel n depth : Nat} {s : Symbol} {stores : List Store} {a b k id : SymbolId}
variable {store d : Option Nat} {v w : Visits} {refs : List SymbolId}
variable {es : List (SymbolId × Symbol)}

namespace Scope

----
-- References
----

/- The symbols that the declaration of an object refers to. -/
def referencesAt (scope : Scope) (id : SymbolId) : List SymbolId :=
  match (scope.symbols[id]?).map Symbol.details with
  | some (.object d) => d.references
  | _ => []

/- The symbol is an object. -/
def isObjectAt (scope : Scope) (id : SymbolId) : Bool :=
  match (scope.symbols[id]?).map Symbol.details with
  | some (.object _) => true
  | _ => false

/- The declaration of an object refers to a symbol. -/
def Refers (scope : Scope) (a b : SymbolId) : Prop := b ∈ scope.referencesAt a

/- No declaration refers to itself, directly or not. -/
def Acyclic (scope : Scope) : Prop := ∀ id, ¬ Relation.TransGen scope.Refers id id

/- Declarations refer to symbols of the scope only. -/
def Resolved (scope : Scope) : Prop := ∀ a b, scope.Refers a b → b < scope.symbols.length

/- The depth that a store gives to its members. -/
def baseDepth (stores : List Store) (id : SymbolId) : Nat :=
  if stores.any fun t => t.members.contains id then 1 else 0

/-
  The depth of an object is above the depths of all symbols that
  it refers to, and above the stores if it is in one. No depth
  is larger than that, and all but objects have depth zero.
-/
def HasDepths (scope : Scope) (stores : List Store) (depth : SymbolId → Nat) : Prop :=
  ∀ id, depth id = if scope.isObjectAt id then
      (scope.referencesAt id).foldl (fun n r => max n (depth r + 1)) (baseDepth stores id)
    else 0

----
-- Steps of the traversal
----

namespace Visits

/- A symbol gets a depth, which is not known yet while it is visited. -/
def set (v : Visits) (id : SymbolId) (depth : Option Nat) : Visits :=
  { v with depths := v.depths.insert id depth }

/- An object is listed, and its depth is known. -/
def list (v : Visits) (x : NamedVariable) : Visits :=
  { v with listed := v.listed ++ [x] }.set x.symbol (some x.depth)

/- The depth of a symbol, as far as it is known. -/
def depthOf (v : Visits) (id : SymbolId) : Nat := ((v.depths.find? id).getD none).getD 0

end Visits

variable {scope : Scope} {v' : Visits}

/- The store that an object is listed with. -/
def storeFor (stores : List Store) (id : SymbolId) (s : Symbol) : Except Fault (Option Nat) :=
  if stores.any fun t => t.members.contains id then (storeAt stores s.offset).map some else .ok none

/- The object as it is listed. -/
def named (id : SymbolId) (s : Symbol) (depth : Nat) (store : Option Nat) : NamedVariable where
  symbol := id
  depth := depth
  isGlobal := s.isGlobal
  onHeap := s.attrs.allocatable
  isPointer := s.attrs.pointer
  isTarget := s.attrs.target
  store := store

theorem listObject_eq (depth : Nat) (v : Visits) : listObject stores id s depth v =
      match storeFor stores id s with
      | .ok store => .ok depth (v.list (named id s depth store))
      | .error f => .error f v := by
  unfold listObject storeFor
  cases stores.any fun t => t.members.contains id with
  | false => rfl
  | true =>
    cases storeAt stores s.offset <;> rfl

theorem listObject_eq_ok (hRun : listObject stores id s depth v = .ok n v') :
    ∃ store, storeFor stores id s = .ok store ∧ n = depth ∧
      v' = v.list (named id s depth store) := by
  rw [listObject_eq] at hRun
  split at hRun
  · cases hRun
    exact ⟨_, ‹_›, rfl, rfl⟩
  · cases hRun

/- The visits of the symbols that a declaration refers to. -/
def visitAll (scope : Scope) (stores : List Store) (fuel : Nat) (refs : List SymbolId)
    (depth : Nat) : Visit Nat :=
  refs.foldlM (fun depth other => do
      let below ← visit scope stores fuel other
      return max depth (below + 1)) depth

/- A symbol that was met before. -/
theorem visit_of_some (hFound : v.depths.find? id = some d) :
    visit scope stores (fuel + 1) id v = .ok (d.getD 0) v := by
  rw [visit, get_bind_run, hFound]
  rfl

section

variable (hNew : v.depths.find? id = none)
include hNew

/- A symbol that is met for the first time. -/
theorem visit_of_none :
    visit scope stores (fuel + 1) id v = (match scope.symbol id with
      | .error f => throw f
      | .ok s =>
        match s.details with
        | .derivedType => throw (.derivedTypeSymbol s.name)
        | .object d => visitAll scope stores fuel d.references (baseDepth stores id) >>=
            listObject stores id s
        | _ => do
          setDepth id (some 0)
          return 0 : Visit Nat) (v.set id none) := by
  rw [visit, get_bind_run, hNew]
  rfl

theorem visit_of_object {d : ObjectDetails} (hSymbol : scope.symbols[id]? = some s)
    (hObject : s.details = .object d) :
    visit scope stores (fuel + 1) id v =
      (visitAll scope stores fuel d.references (baseDepth stores id) >>=
        listObject stores id s) (v.set id none) := by
  have hEntry : scope.symbol id = .ok s := orElse_eq_ok_iff.mpr hSymbol
  rw [visit_of_none hNew]
  simp only [hEntry, hObject]

theorem visit_of_other
    (hSymbol : scope.symbols[id]? = some s) (hOther : scope.isObjectAt id = false)
    (hPlain : s.details ≠ .derivedType) :
    visit scope stores (fuel + 1) id v = .ok 0 ((v.set id none).set id (some 0)) := by
  have hEntry : scope.symbol id = .ok s := orElse_eq_ok_iff.mpr hSymbol
  rw [isObjectAt, hSymbol, Option.map_some] at hOther
  rw [visit_of_none hNew]
  simp only [hEntry]
  cases hDetails : s.details with
  | object d =>
    rw [hDetails] at hOther
    cases hOther
  | derivedType => exact absurd hDetails hPlain
  | _ => rfl

/- What a symbol that is met for the first time is. -/
theorem visit_eq_ok (hRun : visit scope stores (fuel + 1) id v = .ok n v') :
    ∃ s, scope.symbols[id]? = some s ∧ ((∃ d depth w, s.details = .object d ∧
          visitAll scope stores fuel d.references (baseDepth stores id) (v.set id none) =
            .ok depth w ∧ listObject stores id s depth w = .ok n v') ∨
        (scope.isObjectAt id = false ∧ n = 0 ∧ v' = (v.set id none).set id (some 0))) := by
  rw [visit_of_none hNew] at hRun
  cases hEntry : scope.symbol id with
  | error f =>
    rw [hEntry] at hRun
    cases hRun
  | ok s =>
    have hSymbol := orElse_eq_ok_iff.mp hEntry
    refine ⟨s, hSymbol, ?_⟩
    simp only [hEntry] at hRun
    cases hDetails : s.details with
    | object d =>
      simp only [hDetails] at hRun
      rcases bind_eq_ok hRun with ⟨depth, w, hAll, hList⟩
      exact .inl ⟨d, depth, w, rfl, hAll, hList⟩
    | derivedType =>
      simp only [hDetails] at hRun
      cases hRun
    | _ =>
      simp only [hDetails] at hRun
      cases hRun
      exact .inr ⟨by rw [isObjectAt, hSymbol, Option.map_some, hDetails], rfl, rfl⟩

end

----
-- Invariant
----

namespace Visits

/-
  A visit keeps the depths that are known, and the symbols that
  are visited around it.
-/
structure Extends (v w : Visits) : Prop where
  known : ∀ k d, v.depths.find? k = some (some d) → w.depths.find? k = some (some d)
  around : ∀ k, w.depths.find? k = some none ↔ v.depths.find? k = some none

/-
  The objects whose depths are known are listed once each, with
  their depths and stores. Without cycles, their depths are
  those of the references between the declarations.
-/
structure Sound (scope : Scope) (stores : List Store) (v : Visits) : Prop where
  nodup : (v.listed.map NamedVariable.symbol).Nodup
  listed : ∀ k, k ∈ v.listed.map NamedVariable.symbol ↔ scope.isObjectAt k = true ∧
        ∃ d, v.depths.find? k = some (some d)
  depth : ∀ x ∈ v.listed, v.depths.find? x.symbol = some (some x.depth)
  store : ∀ x ∈ v.listed, ∃ s, scope.symbols[x.symbol]? = some s ∧
      storeFor stores x.symbol s = .ok x.store
  plain : ∀ k d, scope.isObjectAt k = false → v.depths.find? k = some (some d) → d = 0
  height : scope.Acyclic → ∀ k d, scope.isObjectAt k = true → v.depths.find? k = some (some d) →
      (∀ r ∈ scope.referencesAt k, ∃ n, v.depths.find? r = some (some n)) ∧
      d = (scope.referencesAt k).foldl (fun n r => max n (v.depthOf r + 1)) (baseDepth stores k)

theorem Extends.refl (v : Visits) : Extends v v := ⟨fun _ _ hKnown => hKnown, fun _ => Iff.rfl⟩

theorem Extends.trans (hFirst : Extends v v') (hSecond : Extends v' w) : Extends v w :=
  ⟨fun k d hKnown => hSecond.known k d (hFirst.known k d hKnown),
    fun k => (hSecond.around k).trans (hFirst.around k)⟩

/- A symbol that was met has the same depth later. -/
theorem Extends.depthOf_eq (hExtends : Extends v w) (hMet : v.depths.find? k = some d) :
    w.depthOf k = v.depthOf k := by
  unfold depthOf
  cases d with
  | none => rw [(hExtends.around k).mpr hMet, hMet]
  | some d => rw [hExtends.known k d hMet, hMet]

theorem find?_set (v : Visits) (id : SymbolId) (depth : Option Nat) (k : SymbolId) :
    (v.set id depth).depths.find? k = if k = id then some depth else v.depths.find? k :=
  Keyed.find?_insert id depth v.depths k

/- The references of a symbol, when others are known in addition. -/
theorem foldl_depthOf_congr (hSame : ∀ r ∈ refs, w.depthOf r = v.depthOf r) (n : Nat) :
    refs.foldl (fun n r => max n (w.depthOf r + 1)) n =
      refs.foldl (fun n r => max n (v.depthOf r + 1)) n := by
  induction refs generalizing n with
  | nil => rfl
  | cons r refs ih =>
    rw [List.foldl_cons, hSame r (.head _)]
    exact ih (fun r hIn => hSame r (.tail _ hIn)) _

theorem Sound.empty : Sound scope stores {} where
  nodup := List.nodup_nil
  listed k := by simp [Keyed.find?]
  depth := by simp
  store := by simp
  plain := by simp [Keyed.find?]
  height := by simp [Keyed.find?]

/- Depths of symbols that are no objects may become known. -/
theorem Sound.change (hSound : Sound scope stores v) (hListed : w.listed = v.listed)
    (hKept : ∀ k d, v.depths.find? k = some (some d) → w.depths.find? k = some (some d))
    (hNew : ∀ k d, w.depths.find? k = some (some d) → v.depths.find? k = some (some d) ∨
        scope.isObjectAt k = false ∧ d = 0) : Sound scope stores w := by
  have hObjects : ∀ k d, scope.isObjectAt k = true → w.depths.find? k = some (some d) →
        v.depths.find? k = some (some d) := by
    intro k d hObject hFound
    rcases hNew k d hFound with hOld | ⟨hOther, -⟩
    · exact hOld
    · rw [hObject] at hOther
      cases hOther
  refine ⟨hListed ▸ hSound.nodup, ?_, ?_, hListed ▸ hSound.store, ?_, ?_⟩
  · intro k
    rw [hListed, hSound.listed]
    refine and_congr_right fun hObject => ⟨?_, ?_⟩
    · exact fun ⟨d, hFound⟩ => ⟨d, hKept k d hFound⟩
    · exact fun ⟨d, hFound⟩ => ⟨d, hObjects k d hObject hFound⟩
  · rw [hListed]
    exact fun x hX => hKept _ _ (hSound.depth x hX)
  · intro k d hOther hFound
    rcases hNew k d hFound with hOld | ⟨-, hZero⟩
    · exact hSound.plain k d hOther hOld
    · exact hZero
  · intro hAcyclic k d hObject hFound
    rcases hSound.height hAcyclic k d hObject (hObjects k d hObject hFound) with ⟨hRefs, hDepth⟩
    refine ⟨?_, ?_⟩
    · intro r hIn
      rcases hRefs r hIn with ⟨n, hN⟩
      exact ⟨n, hKept r n hN⟩
    · rw [hDepth]
      refine (foldl_depthOf_congr (fun r hIn => ?_) _).symm
      rcases hRefs r hIn with ⟨n, hN⟩
      rw [depthOf, depthOf, hKept r n hN, hN]

theorem ne_of_known {d : Nat} (hNew : v.depths.find? id ≠ some (some d))
    (hFound : v.depths.find? k = some (some d)) : k ≠ id := by
  rintro rfl
  exact hNew hFound

theorem Sound.enter (hSound : Sound scope stores v) (hNew : v.depths.find? id = none) :
    Sound scope stores (v.set id none) := by
  refine hSound.change rfl ?_ ?_
  · intro k d hFound
    have hOther : k ≠ id := ne_of_known (by simp [hNew]) hFound
    rw [find?_set, if_neg hOther, hFound]
  · intro k d hFound
    rw [find?_set] at hFound
    split at hFound
    · cases hFound
    · exact .inl hFound

/- Other symbols than objects are left without being listed. -/
theorem Sound.leave (hSound : Sound scope stores v) (hNew : v.depths.find? id = none)
    (hOther : scope.isObjectAt id = false) : Sound scope stores ((v.set id none).set id (some 0)) := by
  refine (hSound.enter hNew).change rfl ?_ ?_
  · intro k d hFound
    have hSame : k ≠ id := ne_of_known (by simp [find?_set]) hFound
    rw [find?_set, if_neg hSame, hFound]
  · intro k d hFound
    rw [find?_set] at hFound
    split at hFound
    · rename_i hSame
      cases hFound
      exact .inr ⟨hSame ▸ hOther, rfl⟩
    · exact .inl hFound

/- A symbol that is left, once it has been visited. -/
theorem Extends.leave (hExtends : Extends (v.set id none) w) (hNew : v.depths.find? id = none)
    (depth : Nat) : Extends v (w.set id (some depth)) := by
  refine ⟨?_, ?_⟩
  · intro k d hKnown
    have hOther : k ≠ id := ne_of_known (by simp [hNew]) hKnown
    rw [find?_set, if_neg hOther]
    apply hExtends.known
    rw [find?_set, if_neg hOther, hKnown]
  · intro k
    rw [find?_set]
    by_cases hSame : k = id
    · simp [hSame, hNew]
    · rw [if_neg hSame, hExtends.around, find?_set, if_neg hSame]

/- An object is listed when it is left. -/
theorem Sound.list (hSound : Sound scope stores w) (hOpen : w.depths.find? id = some none)
    (hSymbol : scope.symbols[id]? = some s) (hObject : scope.isObjectAt id = true)
    (hStore : storeFor stores id s = .ok store)
    (hRefs : scope.Acyclic → ∀ r ∈ scope.referencesAt id, ∃ n, w.depths.find? r = some (some n))
    (hDepth : depth = (scope.referencesAt id).foldl
      (fun n r => max n (w.depthOf r + 1)) (baseDepth stores id)) :
    Sound scope stores (w.list (named id s depth store)) := by
  have hKnown : ∀ k d, w.depths.find? k = some (some d) → k ≠ id :=
    fun k d hFound => ne_of_known (by simp [hOpen]) hFound
  have hAbsent : id ∉ w.listed.map NamedVariable.symbol := by
    intro hIn
    rcases ((hSound.listed id).mp hIn).2 with ⟨d, hFound⟩
    exact hKnown id d hFound rfl
  have hFind : ∀ k, (w.list (named id s depth store)).depths.find? k =
        if k = id then some (some depth) else w.depths.find? k := fun k => find?_set _ id _ k
  have hSame : ∀ r n, w.depths.find? r = some (some n) →
        (w.list (named id s depth store)).depthOf r = w.depthOf r := by
    intro r n hN
    rw [depthOf, depthOf, hFind, if_neg (hKnown r n hN)]
  refine ⟨?_, ?_, ?_, ?_, ?_, ?_⟩
  · change ((w.listed ++ [_]).map _).Nodup
    rw [List.map_append, List.nodup_append]
    refine ⟨hSound.nodup, List.nodup_singleton _, ?_⟩
    rintro k hIn k' hLast rfl
    have hSame : k = id := List.mem_singleton.mp hLast
    exact hAbsent (hSame ▸ hIn)
  · intro k
    change k ∈ (w.listed ++ [_]).map _ ↔ _
    rw [List.map_append, List.mem_append, hSound.listed, hFind]
    by_cases hK : k = id
    · subst hK
      simp [hObject, named]
    · simp [hK, named]
  · intro x hX
    rw [hFind]
    rcases List.mem_append.mp hX with hOld | hLast
    · have hFound := hSound.depth x hOld
      rw [if_neg (hKnown x.symbol x.depth hFound), hFound]
    · rw [List.mem_singleton.mp hLast]
      exact if_pos rfl
  · intro x hX
    rcases List.mem_append.mp hX with hOld | hLast
    · exact hSound.store x hOld
    · rw [List.mem_singleton.mp hLast]
      exact ⟨s, hSymbol, hStore⟩
  · intro k d hOther hFound
    have hK : k ≠ id := by
      rintro rfl
      rw [hObject] at hOther
      cases hOther
    rw [hFind, if_neg hK] at hFound
    exact hSound.plain k d hOther hFound
  · intro hAcyclic k d hIs hFound
    rw [hFind] at hFound
    have hBoth : (∀ r ∈ scope.referencesAt k, ∃ n, w.depths.find? r = some (some n)) ∧
          d = (scope.referencesAt k).foldl (fun n r => max n (w.depthOf r + 1))
            (baseDepth stores k) := by
      by_cases hK : k = id
      · subst hK
        rw [if_pos rfl, Option.some.injEq, Option.some.injEq] at hFound
        exact ⟨hRefs hAcyclic, hFound.symm.trans hDepth⟩
      · rw [if_neg hK] at hFound
        exact hSound.height hAcyclic k d hIs hFound
    refine ⟨?_, ?_⟩
    · intro r hIn
      rcases hBoth.1 r hIn with ⟨n, hN⟩
      exact ⟨n, by rw [hFind, if_neg (hKnown r n hN), hN]⟩
    · rw [hBoth.2]
      refine (foldl_depthOf_congr (fun r hIn => ?_) _).symm
      rcases hBoth.1 r hIn with ⟨n, hN⟩
      exact hSame r n hN

end Visits

----
-- Traversal
----

/-
  What a visit of a symbol does: it gives the depth of the
  symbol, which is known afterwards unless the symbol is visited
  already.
-/
structure Passes (scope : Scope) (stores : List Store) (id : SymbolId) (n : Nat)
    (v w : Visits) : Prop where
  sound : w.Sound scope stores
  extend : v.Extends w
  result : n = w.depthOf id
  met : ∃ d, w.depths.find? id = some d
  known : scope.Acyclic → ∃ d, w.depths.find? id = some (some d)

/- All symbols that are visited lead to this one. -/
def LeadTo (scope : Scope) (v : Visits) (id : SymbolId) : Prop :=
  ∀ k, v.depths.find? k = some none → Relation.TransGen scope.Refers k id

theorem visitAll_sound (hVisit : ∀ {id n : Nat} {v w : Visits},
      v.Sound scope stores → (scope.Acyclic → LeadTo scope v id) →
      visit scope stores fuel id v = .ok n w → Passes scope stores id n v w)
    (hSound : v.Sound scope stores)
    (hLead : scope.Acyclic → ∀ r ∈ refs, LeadTo scope v r)
    (hRun : visitAll scope stores fuel refs base v = .ok depth w) :
    w.Sound scope stores ∧ v.Extends w ∧ (scope.Acyclic → ∀ r ∈ refs,
        ∃ n, w.depths.find? r = some (some n)) ∧
      depth = refs.foldl (fun n r => max n (w.depthOf r + 1)) base := by
  induction refs generalizing v base with
  | nil =>
    cases hRun
    exact ⟨hSound, .refl _, by simp, rfl⟩
  | cons r rest ih =>
    rcases bind_eq_ok hRun with ⟨next, v₁, hStep, hRest⟩
    rcases bind_eq_ok hStep with ⟨n, v₂, hFirst, hPure⟩
    cases hPure
    have hPasses := hVisit hSound (fun hAcyclic => hLead hAcyclic r (.head _)) hFirst
    have hLead' : scope.Acyclic → ∀ r ∈ rest, LeadTo scope v₁ r := by
      intro hAcyclic q hIn k hOpen
      exact hLead hAcyclic q (.tail r hIn) k ((hPasses.extend.around k).mp hOpen)
    rcases ih hPasses.sound hLead' hRest with ⟨hSound', hExtends, hKnown, hDepth⟩
    refine ⟨hSound', hPasses.extend.trans hExtends, ?_, ?_⟩
    · intro hAcyclic q hIn
      rcases List.mem_cons.mp hIn with rfl | hRest
      · rcases hPasses.known hAcyclic with ⟨d, hFound⟩
        exact ⟨d, hExtends.known q d hFound⟩
      · exact hKnown hAcyclic q hRest
    · rcases hPasses.met with ⟨d, hFound⟩
      rw [List.foldl_cons, hExtends.depthOf_eq hFound, ← hPasses.result, hDepth]

/- A visit that returns lists what it finds, with its depths. -/
theorem visit_sound (hSound : v.Sound scope stores)
    (hLead : scope.Acyclic → LeadTo scope v id) (hRun : visit scope stores fuel id v = .ok n w) :
    Passes scope stores id n v w := by
  induction fuel generalizing id n v w with
  | zero => cases hRun
  | succ fuel ih =>
    cases hFound : v.depths.find? id with
    | some d =>
      rw [visit_of_some hFound] at hRun
      cases hRun
      refine ⟨hSound, .refl v, ?_, ⟨d, hFound⟩, ?_⟩
      · rw [Visits.depthOf, hFound]
        rfl
      · -- a symbol that is visited already would lead to itself
        intro hAcyclic
        cases d with
        | none => exact absurd (hLead hAcyclic id hFound) (hAcyclic id)
        | some d => exact ⟨d, hFound⟩
    | none =>
      rcases visit_eq_ok hFound hRun with ⟨s, hSymbol, ⟨d, depth, v₁, hDetails, hAll, hList⟩ |
          ⟨hOther, rfl, rfl⟩⟩
      · have hObject : scope.isObjectAt id = true := by
          rw [isObjectAt, hSymbol, Option.map_some, hDetails]
        have hRefs : scope.referencesAt id = d.references := by
          rw [referencesAt, hSymbol, Option.map_some, hDetails]
        rw [← hRefs] at hAll
        have hLead' : scope.Acyclic → ∀ r ∈ scope.referencesAt id,
            LeadTo scope (v.set id none) r := by
          intro hAcyclic r hIn k hOpen
          rw [Visits.find?_set] at hOpen
          split at hOpen
          · rename_i hSame
            subst hSame
            exact .single hIn
          · exact (hLead hAcyclic k hOpen).tail hIn
        rcases visitAll_sound ih (hSound.enter hFound) hLead' hAll
          with ⟨hSound', hExtends, hKnown, hDepth⟩
        rcases listObject_eq_ok hList with ⟨store, hStore, rfl, rfl⟩
        have hOpen : v₁.depths.find? id = some none := by
          rw [hExtends.around, Visits.find?_set, if_pos rfl]
        have hAfter : (v₁.list (named id s n store)).depths.find? id = some (some n) :=
          (Visits.find?_set _ id _ id).trans (if_pos rfl)
        refine ⟨hSound'.list hOpen hSymbol hObject hStore hKnown
          hDepth, ?_, ?_, ⟨_, hAfter⟩, fun _ => ⟨n, hAfter⟩⟩
        · exact Visits.Extends.leave (w := { v₁ with listed := v₁.listed ++ [named id s n store] })
            ⟨hExtends.known, hExtends.around⟩ hFound n
        · rw [Visits.depthOf, hAfter]
          rfl
      · have hAfter : ((v.set id none).set id (some 0)).depths.find? id = some (some 0) := by
          rw [Visits.find?_set, if_pos rfl]
        refine ⟨hSound.leave hFound hOther, (Visits.Extends.refl _).leave hFound 0, ?_,
          ⟨_, hAfter⟩, fun _ => ⟨0, hAfter⟩⟩
        rw [Visits.depthOf, hAfter]
        rfl

----
-- Termination
----

/- The symbols of a scope that were not met yet. -/
def unmet (scope : Scope) (v : Visits) : Finset Nat :=
  (Finset.range scope.symbols.length).filter fun k => v.depths.find? k = none

/- Symbols that were met before were met afterwards. -/
def Grows (v w : Visits) : Prop := ∀ k, w.depths.find? k = none → v.depths.find? k = none

theorem Grows.card_le (hGrows : Grows v w) : (unmet scope w).card ≤ (unmet scope v).card := by
  apply Finset.card_le_card
  intro k hIn
  rw [unmet, Finset.mem_filter] at hIn ⊢
  exact ⟨hIn.1, hGrows k hIn.2⟩

theorem set_grows (v : Visits) (id : SymbolId) (depth : Option Nat) :
    Grows v (v.set id depth) := by
  intro k hNone
  rw [Visits.find?_set] at hNone
  split at hNone
  · cases hNone
  · exact hNone

theorem card_set_lt (hBelow : id < scope.symbols.length) (hNew : v.depths.find? id = none) :
    (unmet scope (v.set id none)).card < (unmet scope v).card := by
  apply Finset.card_lt_card
  refine Finset.ssubset_iff_of_subset ?_ |>.mpr ⟨id, ?_, ?_⟩
  · intro k hIn
    rw [unmet, Finset.mem_filter] at hIn ⊢
    exact ⟨hIn.1, set_grows v id none k hIn.2⟩
  · rw [unmet, Finset.mem_filter]
    exact ⟨Finset.mem_range.mpr hBelow, hNew⟩
  · rw [unmet, Finset.mem_filter, Visits.find?_set]
    simp

/-
  A scope whose variables can be ordered: there are no derived
  types, declarations refer to symbols of the scope, and the
  stores of their members are found.
-/
structure Orderable (scope : Scope) (stores : List Store) : Prop where
  plain : ∀ s ∈ scope.symbols, s.details ≠ .derivedType
  resolved : scope.Resolved
  stores : ∀ id s, scope.symbols[id]? = some s → ∃ store, storeFor stores id s = .ok store

theorem visitAll_returns (hVisit : ∀ {id : Nat} {v : Visits},
      id < scope.symbols.length → (unmet scope v).card < fuel →
      ∃ n w, visit scope stores fuel id v = .ok n w ∧ Grows v w)
    (hRefs : ∀ r ∈ refs, r < scope.symbols.length) (base : Nat)
    (hFuel : (unmet scope v).card < fuel) :
    ∃ depth w, visitAll scope stores fuel refs base v = .ok depth w ∧ Grows v w := by
  induction refs generalizing v base with
  | nil => exact ⟨base, v, rfl, fun _ hNone => hNone⟩
  | cons r rest ih =>
    rcases hVisit (hRefs r (.head _)) hFuel with ⟨n, v₁, hFirst, hGrows⟩
    rcases ih (fun q hIn => hRefs q (.tail r hIn))
      (max base (n + 1)) (hGrows.card_le.trans_lt hFuel) with ⟨depth, w, hRest, hGrows'⟩
    refine ⟨depth, w, ?_, fun k hNone => hGrows k (hGrows' k hNone)⟩
    exact bind_of_ok (bind_of_ok hFirst rfl) hRest

/- The number of symbols bounds the nesting of visits. -/
theorem visit_returns (hOrderable : scope.Orderable stores)
    (hBelow : id < scope.symbols.length) (hFuel : (unmet scope v).card < fuel) :
    ∃ n w, visit scope stores fuel id v = .ok n w ∧ Grows v w := by
  induction fuel generalizing id v with
  | zero => exact absurd hFuel (Nat.not_lt_zero _)
  | succ fuel ih =>
    cases hFound : v.depths.find? id with
    | some d => exact ⟨d.getD 0, v, visit_of_some hFound, fun _ hNone => hNone⟩
    | none =>
      have hSymbol : scope.symbols[id]? = some scope.symbols[id] := List.getElem?_eq_getElem hBelow
      have hPlain := hOrderable.plain _ (List.getElem_mem hBelow)
      cases hObject : scope.isObjectAt id with
      | false =>
        refine ⟨0, _, visit_of_other hFound hSymbol hObject hPlain, ?_⟩
        exact fun k hNone => set_grows v id none k (set_grows _ id _ k hNone)
      | true =>
        rw [isObjectAt, hSymbol, Option.map_some] at hObject
        split at hObject
        · rename_i d hDetails
          rw [Option.some.injEq] at hDetails
          have hRefs : ∀ r ∈ d.references, r < scope.symbols.length := by
            intro r hIn
            apply hOrderable.resolved id r
            rw [Refers, referencesAt, hSymbol, Option.map_some, hDetails]
            exact hIn
          have hLess := card_set_lt hBelow hFound
          rcases visitAll_returns ih hRefs (baseDepth stores id) (v := v.set id none)
            (hLess.trans_le (Nat.le_of_lt_succ hFuel)) with ⟨depth, w, hAll, hGrows⟩
          rcases hOrderable.stores id _ hSymbol with ⟨store, hStore⟩
          rw [visit_of_object hFound hSymbol hDetails]
          refine ⟨depth, _, bind_of_ok hAll (by rw [listObject_eq, hStore]), ?_⟩
          intro k hNone
          exact set_grows v id none k (hGrows k (set_grows _ id _ k hNone))
        · cases hObject

----
-- Variables
----

/- The visits of all symbols, in the order of their names. -/
theorem forM_visit_sound (hSound : v.Sound scope stores)
    (hClosed : ∀ k, v.depths.find? k ≠ some none)
    (hRun : (es.forM fun e => discard (visit scope stores fuel e.1) : Visit Unit) v = .ok () w) :
    w.Sound scope stores ∧ v.Extends w ∧ ∀ e ∈ es, ∃ d, w.depths.find? e.1 = some (some d) := by
  induction es generalizing v with
  | nil =>
    cases hRun
    exact ⟨hSound, .refl _, by simp⟩
  | cons e rest ih =>
    rcases bind_eq_ok hRun with ⟨_, v₁, hFirst, hRest⟩
    have hVisit : ∃ n, visit scope stores fuel e.1 v = .ok n v₁ := by
      rcases bind_eq_ok hFirst with ⟨n, v₂, hStep, hPure⟩
      cases hPure
      exact ⟨n, hStep⟩
    rcases hVisit with ⟨n, hVisit⟩
    have hPasses := visit_sound hSound (fun _ k hOpen => absurd hOpen (hClosed k)) hVisit
    have hClosed₁ : ∀ k, v₁.depths.find? k ≠ some none :=
      fun k hOpen => hClosed k ((hPasses.extend.around k).mp hOpen)
    rcases ih hPasses.sound hClosed₁ hRest with ⟨hSound', hExtends, hAll⟩
    refine ⟨hSound', hPasses.extend.trans hExtends, ?_⟩
    intro f hIn
    rcases List.mem_cons.mp hIn with rfl | hLater
    · rcases hPasses.met with ⟨d, hMet⟩
      cases d with
      | none => exact absurd hMet (hClosed₁ _)
      | some d => exact ⟨d, hExtends.known _ d hMet⟩
    · exact hAll f hLater

theorem forM_visit_returns (hOrderable : scope.Orderable stores)
    (hBelow : ∀ e ∈ es, e.1 < scope.symbols.length) (hFuel : (unmet scope v).card < fuel) :
    ∃ w, (es.forM fun e => discard (visit scope stores fuel e.1) : Visit Unit) v = .ok () w := by
  induction es generalizing v with
  | nil => exact ⟨v, rfl⟩
  | cons e rest ih =>
    rcases visit_returns hOrderable (hBelow e (.head _)) hFuel with ⟨n, v₁, hFirst, hGrows⟩
    rcases ih (fun f hIn => hBelow f (.tail e hIn))
      (hGrows.card_le.trans_lt hFuel) with ⟨w, hRest⟩
    refine ⟨w, ?_⟩
    exact bind_of_ok (bind_of_ok hFirst rfl) hRest

/-
  The variables of a scope that are listed: all objects, once
  each, in the order of their depths, with their stores.
-/
structure Lists (scope : Scope) (stores : List Store) (vars : List NamedVariable) : Prop where
  objects : (vars.map NamedVariable.symbol).Perm
      ((List.range scope.symbols.length).filter scope.isObjectAt)
  sorted : vars.Pairwise fun a b => a.depth ≤ b.depth
  store : ∀ x ∈ vars, ∃ s, scope.symbols[x.symbol]? = some s ∧
      storeFor stores x.symbol s = .ok x.store
  depths : scope.Acyclic → ∃ depth, scope.HasDepths stores depth ∧
      ∀ x ∈ vars, x.depth = depth x.symbol

theorem isObjectAt_lt (hObject : scope.isObjectAt id = true) : id < scope.symbols.length := by
  unfold isObjectAt at hObject
  cases hSymbol : scope.symbols[id]? with
  | none =>
    rw [hSymbol] at hObject
    cases hObject
  | some s => exact (List.getElem?_eq_some_iff.mp hSymbol).1

/- What is known when all symbols have been visited. -/
theorem lists_of_sound (hSound : v.Sound scope stores) (hAll : ∀ id < scope.symbols.length,
      ∃ d, v.depths.find? id = some (some d)) :
    scope.Lists stores (v.listed.mergeSort fun a b => decide (a.depth ≤ b.depth)) := by
  have hPerm := List.mergeSort_perm v.listed fun a b => decide (a.depth ≤ b.depth)
  refine ⟨?_, ?_, ?_, ?_⟩
  · refine (hPerm.map _).trans ?_
    rw [List.perm_ext_iff_of_nodup hSound.nodup (List.nodup_range.filter _)]
    intro k
    rw [hSound.listed, List.mem_filter, List.mem_range]
    constructor
    · exact fun ⟨hObject, _⟩ => ⟨isObjectAt_lt hObject, hObject⟩
    · exact fun ⟨hBelow, hObject⟩ => ⟨hObject, hAll k hBelow⟩
  · have hSorted : (v.listed.mergeSort fun a b =>
          decide (a.depth ≤ b.depth)).Pairwise fun a b => decide (a.depth ≤ b.depth) = true :=
      List.pairwise_mergeSort (fun a b c hAB hBC => by
          simp only [decide_eq_true_eq] at hAB hBC ⊢
          exact hAB.trans hBC) (fun a b => by
          simp only [Bool.or_eq_true, decide_eq_true_eq]
          exact Nat.le_total a.depth b.depth) v.listed
    exact hSorted.imp fun hLe => of_decide_eq_true hLe
  · exact fun x hX => hSound.store x (hPerm.mem_iff.mp hX)
  · intro hAcyclic
    refine ⟨v.depthOf, ?_, ?_⟩
    · intro id
      cases hObject : scope.isObjectAt id with
      | false =>
        rw [Visits.depthOf]
        cases hFound : v.depths.find? id with
        | none => rfl
        | some d =>
          cases d with
          | none => rfl
          | some d => exact hSound.plain id d hObject hFound
      | true =>
        rcases hAll id (isObjectAt_lt hObject) with ⟨d, hFound⟩
        rw [Visits.depthOf, hFound]
        exact (hSound.height hAcyclic id d hObject hFound).2
    · intro x hX
      rw [Visits.depthOf, hSound.depth x (hPerm.mem_iff.mp hX)]
      rfl

/- The order of a scope, if it returns. -/
theorem storage_eq_ok (hRun : scope.storage = .ok vars) :
    ∃ stores named, scope.stores = .ok stores ∧
      vars = stores.map Variable.store ++ named.map Variable.named ∧ scope.Lists stores named := by
  rcases bind_eq_ok_iff.mp hRun with ⟨stores, hStores, hRest⟩
  simp only [] at hRest
  split at hRest
  · cases hRest
  · rename_i w hVisits
    cases hRest
    rcases forM_visit_sound .empty (by simp [Keyed.find?]) hVisits with ⟨hSound, -, hAll⟩
    refine ⟨stores, _, hStores, rfl, lists_of_sound hSound ?_⟩
    intro id hBelow
    exact hAll (id, scope.symbols[id]) (mem_byName_iff.mpr (List.getElem?_eq_getElem hBelow))

/- The order of a scope returns, if its stores can be found. -/
theorem storage_returns (hStores : scope.stores = .ok stores)
    (hOrderable : scope.Orderable stores) : ∃ vars, scope.storage = .ok vars := by
  have hFuel : (unmet scope {}).card < scope.symbols.length + 1 := by
    refine Nat.lt_succ_of_le ?_
    refine Nat.le_trans (Finset.card_filter_le _ _) ?_
    rw [Finset.card_range]
  have hBelow : ∀ e ∈ scope.byName, e.1 < scope.symbols.length := fun e hIn =>
      (List.getElem?_eq_some_iff.mp (mem_byName_iff.mp hIn)).1
  rcases forM_visit_returns hOrderable hBelow hFuel with ⟨w, hVisits⟩
  unfold storage
  rw [hStores]
  change ∃ vars, (match (scope.byName.forM fun e =>
    discard (visit scope stores (scope.symbols.length + 1) e.1) : Visit Unit) {} with
    | .error f _ => _
    | .ok () visits => _) = Except.ok vars
  rw [hVisits]
  exact ⟨_, rfl⟩

/- The stores of members are found. -/
theorem Shared.storeFor (hShared : scope.Shared stores) (hSymbol : scope.symbols[id]? = some s) :
    (∃ t ∈ stores, id ∈ t.members ∧ storeFor stores id s = .ok (some t.offset)) ∨
      (∀ t ∈ stores, id ∉ t.members) ∧ storeFor stores id s = .ok none := by
  unfold Scope.storeFor
  cases hAny : stores.any fun t => t.members.contains id with
  | true =>
    rcases List.any_eq_true.mp hAny with ⟨t, hT, hMember⟩
    rw [List.contains_iff_mem] at hMember
    refine .inl ⟨t, hT, hMember, ?_⟩
    rw [hShared.storeAt hT hMember hSymbol]
    rfl
  | false =>
    refine .inr ⟨?_, rfl⟩
    intro t hT hMember
    have hNone := List.any_eq_false.mp hAny t hT
    exact hNone (List.contains_iff_mem.mpr hMember)

/- A scope without equivalences has no stores. -/
theorem stores_of_empty (hNone : scope.equivalences = []) : scope.stores = .ok [] := by
  unfold stores
  rw [hNone]
  rfl

theorem orderable_of_fits (hFits : scope.Fits)
    (hPlain : ∀ s ∈ scope.symbols, s.details ≠ .derivedType) (hResolved : scope.Resolved) :
    ∃ stores, scope.stores = .ok stores ∧ scope.Orderable stores := by
  by_cases hNone : scope.equivalences = []
  · refine ⟨[], stores_of_empty hNone, hPlain, hResolved, ?_⟩
    exact fun id s _ => ⟨none, rfl⟩
  · rcases stores_shared hFits hNone with ⟨stores, hStores, hShared⟩
    refine ⟨stores, hStores, hPlain, hResolved, ?_⟩
    intro id s hSymbol
    rcases hShared.storeFor hSymbol with ⟨t, -, -, hStore⟩ | ⟨-, hStore⟩
    · exact ⟨_, hStore⟩
    · exact ⟨_, hStore⟩

/- The depth of an object is above what it refers to. -/
theorem HasDepths.lt {depth : SymbolId → Nat} (hDepths : scope.HasDepths stores depth)
    (hRefers : scope.Refers a b) : depth b < depth a := by
  have hBound : ∀ (refs : List SymbolId) (base : Nat),
        base ≤ refs.foldl (fun n r => max n (depth r + 1)) base ∧
        ∀ r ∈ refs, depth r < refs.foldl (fun n r => max n (depth r + 1)) base := by
    intro refs
    induction refs with
    | nil => simp
    | cons r refs ih =>
      intro base
      rcases ih (max base (depth r + 1)) with ⟨hBase, hAll⟩
      rw [List.foldl_cons]
      refine ⟨by omega, ?_⟩
      intro q hIn
      rcases List.mem_cons.mp hIn with rfl | hRest
      · omega
      · exact hAll q hRest
  have hObject : scope.isObjectAt a = true := by
    rw [Refers, referencesAt] at hRefers
    rw [isObjectAt]
    split at hRefers
    · rfl
    · cases hRefers
  rw [hDepths a, if_pos hObject]
  exact (hBound _ _).2 b hRefers

/-
  The variables of a scope without derived types: the stores,
  then each object once. Without cyclic references, an object
  comes behind the objects that it refers to, and the objects
  are in the order of their depths, which are the heights of the
  references.
-/
theorem storage_ordered (hFits : scope.Fits)
    (hPlain : ∀ s ∈ scope.symbols, s.details ≠ .derivedType) (hResolved : scope.Resolved) :
    ∃ stores vars, scope.stores = .ok stores ∧ scope.storage =
        .ok (stores.map Variable.store ++ vars.map Variable.named) ∧
      (vars.map NamedVariable.symbol).Perm
        ((List.range scope.symbols.length).filter scope.isObjectAt) ∧
      (scope.Acyclic → (∀ before x after, vars = before ++ x :: after →
          ∀ y ∈ vars, scope.Refers x.symbol y.symbol → y ∈ before) ∧
        vars.Pairwise (fun x y => x.depth ≤ y.depth) ∧
        ∃ depth, scope.HasDepths stores depth ∧ ∀ x ∈ vars, x.depth = depth x.symbol) := by
  rcases orderable_of_fits hFits hPlain hResolved with ⟨stores, hStores, hOrderable⟩
  rcases storage_returns hStores hOrderable with ⟨all, hRun⟩
  rcases storage_eq_ok hRun with ⟨stores', vars, hSame, rfl, hLists⟩
  rw [hStores] at hSame
  cases hSame
  refine ⟨stores, vars, hStores, hRun, hLists.objects, ?_⟩
  intro hAcyclic
  rcases hLists.depths hAcyclic with ⟨depth, hDepths, hDepth⟩
  refine ⟨?_, hLists.sorted, depth, hDepths, hDepth⟩
  rintro before x after hSplit y hY hRefers
  have hX : x ∈ vars := by
    rw [hSplit]
    simp
  have hLess : y.depth < x.depth := by
    rw [hDepth x hX, hDepth y hY]
    exact hDepths.lt hRefers
  -- what is not before the object has no smaller depth
  have hSorted := hLists.sorted
  rw [hSplit, List.pairwise_append, List.pairwise_cons] at hSorted
  rw [hSplit] at hY
  rcases List.mem_append.mp hY with hBefore | hRest
  · exact hBefore
  · rcases List.mem_cons.mp hRest with rfl | hAfter
    · exact absurd hLess (Nat.lt_irrefl _)
    · exact absurd hLess (Nat.not_lt_of_le (hSorted.2.1.1 y hAfter))

/- References that go to a smaller rank have no cycles. -/
theorem acyclic_of_rank (rank : SymbolId → Nat)
    (hRank : ∀ a b, scope.Refers a b → rank b < rank a) : scope.Acyclic := by
  have hPath : ∀ a b, Relation.TransGen scope.Refers a b → rank b < rank a := by
    intro a b hPath
    induction hPath with
    | single hRefers => exact hRank _ _ hRefers
    | tail _ hRefers ih => exact Nat.lt_trans (hRank _ _ hRefers) ih
  exact fun id hCycle => Nat.lt_irrefl _ (hPath id id hCycle)

/- References are found by a search of all declarations. -/
theorem refers_of_all {p : SymbolId → SymbolId → Prop} (hAll : ∀ a < scope.symbols.length,
      ∀ b ∈ scope.referencesAt a, p a b) (hRefers : scope.Refers a b) : p a b := by
  by_cases hBelow : a < scope.symbols.length
  · exact hAll a hBelow b hRefers
  · rw [Refers, referencesAt, List.getElem?_eq_none (Nat.le_of_not_lt hBelow)] at hRefers
    cases hRefers

/-
  An array, a text as long as the array says, and two objects
  that share storage, one with the text as initial value. The
  names are not in the order of the references.
-/
def adjustable : Scope where
  symbols :=
    [ { name := "z", details := .object { category := .integer }, offset := 100, size := 4 },
      { name := "a", details := .object
          { category := .real, shape := [⟨none, some { category := .integer, symbols := [0] }⟩] },
        offset := 104, size := 4 },
      { name := "b", details := .object
          { category := .character, length := some { category := .integer, symbols := [1, 3] } },
        offset := 108, size := 4 }, { name := "f", details := .subprogram {} },
      { name := "e", details := .object { category := .real }, offset := 0, size := 8 },
      { name := "d", details := .object
          { category := .character, initial := some { category := .character, symbols := [2] } },
        offset := 4, size := 8 } ]
  equivalences := [[4, 5]]

theorem storage_ordered_adjustable : adjustable.Fits ∧ adjustable.Resolved ∧ adjustable.Acyclic ∧
      ∃ (stores : List Store) (vars : List NamedVariable), adjustable.storage =
          .ok (stores.map Variable.store ++ vars.map Variable.named) ∧
        (vars.map NamedVariable.symbol).Perm [0, 1, 2, 4, 5] ∧
        ∃ depth, adjustable.HasDepths stores depth ∧ depth 0 < depth 1 ∧ depth 1 < depth 2 ∧
          ∀ x ∈ vars, x.depth = depth x.symbol := by
  have hFits : adjustable.Fits := by
    unfold Fits
    decide
  have hPlain : ∀ s ∈ adjustable.symbols, s.details ≠ .derivedType := by decide
  have hResolved : adjustable.Resolved := by
    refine fun a b hRefers => refers_of_all (p := fun _ b =>
      b < adjustable.symbols.length) ?_ hRefers
    decide
  have hAcyclic : adjustable.Acyclic := by
    refine acyclic_of_rank (fun a => if a = 3 then 0 else a + 1) ?_
    refine fun a b hRefers => refers_of_all (p := fun a b =>
      (if b = 3 then 0 else b + 1) < if a = 3 then 0 else a + 1) ?_ hRefers
    decide
  rcases storage_ordered hFits hPlain hResolved with ⟨stores, vars, -, hRun, hObjects, hOrder⟩
  rcases hOrder hAcyclic with ⟨-, -, depth, hDepths, hDepth⟩
  refine ⟨hFits, hResolved, hAcyclic, stores, vars, hRun, hObjects,
    depth, hDepths, hDepths.lt ?_, hDepths.lt ?_, hDepth⟩
  · unfold Refers
    decide
  · unfold Refers
    decide

end Scope

end FortranIR
