import FortranIR.Diagnostics
import Mathlib

/-
  This file states how steps with a state run one after another,
  and how maps and lists of named entries are looked up.

  Main declarations:
    * `bind_of_ok`, `bind_of_error`, `bind_eq_ok`
    * `lookup_eq_some_iff_mem`
-/

namespace FortranIR

variable {α ε γ β : Type} {xs : List α} {t : Std.TreeMap Nat β} {f : β → β} {entries : List (κ × β)}

----
-- Steps
----

section Steps

variable {σ : Type} {f : α → EStateM ε σ β} {s s' : σ} {x : EStateM ε σ α}
variable {r : EStateM.Result ε σ β}

/- The state that a step leaves behind. -/
def stateAfter : EStateM.Result ε σ α → σ
  | .ok _ s => s
  | .error _ s => s

/- A step that succeeds hands its result to the next one. -/
theorem bind_of_ok {a : α} (hRun : x s = .ok a s') (hNext : f a s' = r) : (x >>= f) s = r := by
  simp only [bind, EStateM.bind, hRun, hNext]

/- A step that fails is the last one. -/
theorem bind_of_error (hRun : x s = .error e s') : (x >>= f) s = .error e s' := by
  simp only [bind, EStateM.bind, hRun]

/- A chain of steps that succeeds has a first step that does. -/
theorem bind_eq_ok (hRun : (x >>= f) s = .ok b s') :
    ∃ a s₁, x s = .ok a s₁ ∧ f a s₁ = .ok b s' := by
  simp only [bind, EStateM.bind] at hRun
  cases hFirst : x s with
  | ok a s₁ =>
    rw [hFirst] at hRun
    exact ⟨a, s₁, rfl, hRun⟩
  | error e s₁ =>
    rw [hFirst] at hRun
    cases hRun

theorem step_bind_eq_ok_iff : (x >>= f) s = .ok b s' ↔
      ∃ a s₁, x s = .ok a s₁ ∧ f a s₁ = .ok b s' := by
  refine ⟨bind_eq_ok, ?_⟩
  rintro ⟨a, s₁, hFirst, hRest⟩
  exact bind_of_ok hFirst hRest

theorem get_bind_run {f : σ → EStateM ε σ β} : (get >>= f) s = f s s := rfl

theorem modify_bind_run {f : PUnit → EStateM ε σ β} :
    (modify change >>= f) s = f ⟨⟩ (change s) := rfl

theorem bind_of_get {f : σ → EStateM ε σ β} (hNext : f s s = r) : (get >>= f) s = r := hNext

theorem set_bind_run {f : PUnit → EStateM ε σ β} : (set s' >>= f) s = f ⟨⟩ s' := rfl

theorem bind_of_set {f : PUnit → EStateM ε σ β} (hNext : f ⟨⟩ s' = r) : (set s' >>= f) s = r :=
  hNext

/- A step returns a result, and leaves a state, of some kind. -/
def Succeeds (x : EStateM ε σ α) (s : σ) (p : α → σ → Prop) : Prop := match x s with
  | .ok a s' => p a s'
  | .error _ _ => False

instance {p : α → σ → Prop} [∀ a s, Decidable (p a s)] : Decidable (Succeeds x s p) :=
  decidable_of_bool (match x s with
    | .ok a s' => decide (p a s')
    | .error _ _ => false) (by unfold Succeeds; split <;> simp)

theorem Succeeds.eq_ok (hRun : Succeeds x s p) : ∃ a s', x s = .ok a s' ∧ p a s' := by
  unfold Succeeds at hRun
  split at hRun
  · exact ⟨_, _, by assumption, hRun⟩
  · cases hRun

end Steps

theorem eq_ok_of_toOption {a : α} : ∀ {x : Except ε α}, a ∈ x.toOption → x = .ok a
  | .ok _, rfl => rfl

/- What holds of a step in front of others holds of a list of steps. -/
theorem forM_of_each {μ : Type → Type} [Monad μ] {p : μ PUnit → Prop} {f : α → μ PUnit}
    (hNone : p (pure ⟨⟩)) (hNext : ∀ x y, p x → p y → p (x >>= fun _ => y))
    (hEach : ∀ x ∈ xs, p (f x)) : p (xs.forM f) := by
  induction xs with
  | nil => exact hNone
  | cons x xs ih =>
    rcases List.forall_mem_cons.mp hEach with ⟨hFirst, hRest⟩
    exact hNext _ _ hFirst (ih hRest)

/- Every step of a list may be made if each one of them may. -/
theorem mapM_returns {f : α → Except ε β} (hEach : ∀ x ∈ xs, ∃ y, f x = .ok y) :
    ∃ ys, xs.mapM f = .ok ys := by
  induction xs with
  | nil => exact ⟨[], rfl⟩
  | cons x xs ih =>
    rcases hEach x (.head _) with ⟨y, hY⟩
    rcases ih fun z hIn => hEach z (.tail x hIn) with ⟨ys, hYs⟩
    refine ⟨y :: ys, ?_⟩
    rw [List.mapM_cons, hY, hYs]
    rfl

/- A count grows with the condition, if one more entry meets it. -/
theorem countP_lt (hMore : ∀ x ∈ xs, p x = true → q x = true) {x : α}
    (hMember : x ∈ xs) (hBefore : p x = false) (hNow : q x = true) : xs.countP p < xs.countP q := by
  calc xs.countP p = (xs.filter q).countP p := by
        rw [List.countP_filter]
        refine List.countP_congr fun y hY => ?_
        rw [Bool.and_eq_true]
        exact ⟨fun hP => ⟨hP, hMore y hY hP⟩, And.left⟩
    _ < (xs.filter q).length := by
        rw [List.countP_lt_length_iff]
        exact ⟨x, List.mem_filter.mpr ⟨hMember, hNow⟩, hBefore⟩
    _ = xs.countP q := List.countP_eq_length_filter.symm

----
-- Maps
----

section Maps

variable {k a : Nat} {x v : β} {t' : Std.TreeMap Nat β}

theorem getElem?_insert_nat : (t.insert k v)[a]? = if k = a then some v else t[a]? := by
  simp [Std.TreeMap.getElem?_insert]

theorem getElem?_modify_nat : (t.modify k f)[a]? = if k = a then t[a]?.map f else t[a]? := by
  simp only [Std.TreeMap.getElem?_modify, Nat.compare_eq_eq]
  by_cases hKey : k = a
  · simp [hKey]
  · simp [hKey]

theorem getElem?_modify_map : (t.modify k f)[a]? = t[a]?.map fun x => if k = a then f x else x := by
  rw [getElem?_modify_nat]
  split
  · rfl
  · simp

/- An entry of a changed map is an old one, which may be changed. -/
theorem entry_of_modify (hEntry : (t.modify k f)[a]? = some x) :
    ∃ old, t[a]? = some old ∧ (f old = x ∨ old = x) := by
  rw [getElem?_modify_map] at hEntry
  rcases Option.map_eq_some_iff.mp hEntry with ⟨old, hOld, rfl⟩
  exact ⟨old, hOld, (ite_eq_or_eq _ _ _).imp Eq.symm Eq.symm⟩

theorem map_getElem?_modify (hKept : ∀ x, g (f x) = g x)
    (t : Std.TreeMap Nat β) (k a : Nat) : (t.modify k f)[a]?.map g = t[a]?.map g := by
  rw [getElem?_modify_map, Option.map_map]
  congr 1
  funext x
  rw [Function.comp, apply_ite g, hKept, ite_self]

theorem isSome_of_insert (hOld : t[a]?.isSome) : (t.insert k x)[a]?.isSome := by
  rw [getElem?_insert_nat]
  split
  · rfl
  · exact hOld

theorem getElem?_erase_nat : (t.erase k)[a]? = if k = a then none else t[a]? := by
  simp [Std.TreeMap.getElem?_erase]

/- Changing some entries, where a second change does nothing. -/
theorem getElem?_foldl_modify (index : γ → Nat) (hTwice : ∀ x, f (f x) = f x)
    (keys : List γ) (t : Std.TreeMap Nat β) (a : Nat) :
    (keys.foldl (fun t k => t.modify (index k) f) t)[a]? =
      t[a]?.map fun x => if a ∈ keys.map index then f x else x := by
  induction keys generalizing t with
  | nil => simp
  | cons k keys ih =>
    rw [List.foldl_cons, ih, getElem?_modify_nat]
    by_cases hSame : index k = a
    · subst hSame
      cases t[index k]? with
      | none => simp
      | some x => by_cases hLater : index k ∈ keys.map index <;> simp [hTwice]
    · simp [hSame, Ne.symm hSame]

theorem getElem?_foldl_erase (index : γ → Nat) (keys : List γ) (t : Std.TreeMap Nat β) (a : Nat) :
    (keys.foldl (fun t k => t.erase (index k)) t)[a]? =
      if a ∈ keys.map index then none else t[a]? := by
  induction keys generalizing t with
  | nil => simp
  | cons k keys ih =>
    rw [List.foldl_cons, ih, getElem?_erase_nat]
    by_cases hSame : index k = a
    · subst hSame
      simp
    · simp [hSame, Ne.symm hSame]

/- Two entries that agree in some part are there together. -/
theorem exists_of_map_eq {x y : Option α} {f : α → β} {a : α} (hSame : x.map f = y.map f)
    (hSome : y = some a) : ∃ b, x = some b ∧ f b = f a := by
  rw [hSome, Option.map_some, Option.map_eq_some_iff] at hSame
  exact hSame

/- Entries that are left were there, with the same part. -/
def Remains (part : β → γ) (t t' : Std.TreeMap Nat β) : Prop := ∀ (k : Nat) (x' : β),
    t'[k]? = some x' → ∃ x, t[k]? = some x ∧ part x' = part x

theorem Remains.refl (part : β → γ) (t : Std.TreeMap Nat β) : Remains part t t :=
  fun _ x hEntry => ⟨x, hEntry, rfl⟩

theorem Remains.of_map (hSame : ∀ k : Nat, t'[k]?.map part = t[k]?.map part) :
    Remains part t t' := by
  intro k x' hEntry'
  rcases exists_of_map_eq (hSame k).symm hEntry' with ⟨x, hEntry, hPart⟩
  exact ⟨x, hEntry, hPart.symm⟩

theorem Remains.part {κ : Type} {part : β → γ} (hRemains : Remains part t t') (f : γ → κ) :
    Remains (fun x => f (part x)) t t' := by
  intro k x' hEntry'
  rcases hRemains k x' hEntry' with ⟨x, hEntry, hPart⟩
  exact ⟨x, hEntry, congrArg f hPart⟩

theorem Remains.trans {part : β → γ} {t₁ t₂ t₃ : Std.TreeMap Nat β} (hFirst : Remains part t₁ t₂)
    (hSecond : Remains part t₂ t₃) : Remains part t₁ t₃ := by
  intro k x₃ hEntry₃
  rcases hSecond k x₃ hEntry₃ with ⟨x₂, hEntry₂, hPart₂⟩
  rcases hFirst k x₂ hEntry₂ with ⟨x₁, hEntry₁, hPart₁⟩
  exact ⟨x₁, hEntry₁, hPart₂.trans hPart₁⟩

theorem contains_of_getElem? (hEntry : t[k]? = some v) : t.contains k = true := by
  rw [Std.TreeMap.contains_eq_isSome_getElem?, hEntry]
  rfl

end Maps

----
-- Lists of named entries
----

section Entries

variable {κ β : Type} [BEq κ] [LawfulBEq κ] {entries : List (κ × β)}

theorem mem_of_lookup {k : κ} {v : β} (hFound : entries.lookup k = some v) : (k, v) ∈ entries := by
  rw [List.lookup_eq_some_iff] at hFound
  rcases hFound with ⟨before, after, rfl, -⟩
  simp

theorem lookup_cons_of_ne {a k : κ} {v : β} (hOther : a ≠ k) :
    ((k, v) :: entries).lookup a = entries.lookup a := by
  rw [List.lookup_cons, beq_false_of_ne hOther]

/- An entry that is found is the first one, or a later one. -/
theorem lookup_cons_eq_some {a k : κ} {v w : β} (hFound : ((k, v) :: entries).lookup a = some w) :
    a = k ∧ w = v ∨ a ≠ k ∧ entries.lookup a = some w := by
  by_cases hSame : a = k
  · subst hSame
    rw [List.lookup_cons_self, Option.some.injEq] at hFound
    exact .inl ⟨rfl, hFound.symm⟩
  · rw [lookup_cons_of_ne hSame] at hFound
    exact .inr ⟨hSame, hFound⟩

/- With distinct keys, looking up a key finds every entry. -/
theorem lookup_eq_some_iff_mem (hKeys : (entries.map Prod.fst).Nodup) (k : κ) (v : β) :
    entries.lookup k = some v ↔ (k, v) ∈ entries := by
  refine ⟨mem_of_lookup, ?_⟩
  intro hMember
  induction entries with
  | nil => simp at hMember
  | cons entry rest ih =>
    simp only [List.map_cons, List.nodup_cons] at hKeys
    rcases List.mem_cons.mp hMember with hHead | hTail
    · simp [← hHead]
    · have hOther : k ≠ entry.1 := by
        intro hSame
        apply hKeys.1
        rw [← hSame]
        exact List.mem_map_of_mem hTail
      rw [lookup_cons_of_ne hOther]
      exact ih hKeys.2 hTail

theorem lookup_eq_none_iff_notMem {k : κ} : entries.lookup k = none ↔ k ∉ entries.map Prod.fst := by
  rw [List.lookup_eq_none_iff]
  simp only [bne_iff_ne, ne_eq, List.mem_map, not_exists, not_and]
  exact ⟨fun hAll e hMember hSame => hAll e hMember hSame.symm,
      fun hAll e hMember hSame => hAll e hMember hSame.symm⟩

end Entries

end FortranIR
