import FortranIR.Proofs.Frame

/-
  This file deals with the handles of code in a module: nested
  blocks belong to the regions of the code, and what is created
  at different times has different handles.

  Main declarations:
    * `Ranged`
    * `Placed.Fresh.block`
-/

namespace FortranIR

variable {α : Type} {c : Placed α l}

----
-- Nested blocks
----

namespace Placed

variable {env : α → Option ValueId}

/- The handles of the outermost blocks, if these are blocks. -/
def outerBlocks {l : Layer} : Placed α l → List BlockId
  | .nil => []
  | .op _ _ _ => []
  | .region _ _ _ => []
  | .block b _ rest => b.1 :: outerBlocks rest

theorem outerBlocks_ops (c : Placed α .ops) : outerBlocks c = [] := by
  cases c with
  | nil => rfl
  | op h inner rest => rfl

theorem outerBlocks_regions (c : Placed α .regions) : outerBlocks c = [] := by
  cases c with
  | nil => rfl
  | region r inner rest => rfl

theorem outerBlocks_blocks : (c : Placed α .blocks) → outerBlocks c = heads c
  | .nil => by simp [outerBlocks, heads, Forest.blockRoots]
  | .block b inner rest => by
      rw [outerBlocks, outerBlocks_blocks rest]
      simp [heads, Forest.blockRoots]

/- Blocks that are nested in code belong to its regions. -/
theorem Shows.isIn (hShows : c.Shows m env succ) (hMember : b ∈ c.blockIds) :
    b ∈ outerBlocks c ∨ ∃ r ∈ c.regionInfos, m.IsIn r b := by
  induction c generalizing succ with
  | nil => cases hMember
  | op h inner rest ihInner ihRest =>
    rcases hShows with ⟨-, hInner, hRest⟩
    simp only [blockIds, Forest.gather, List.nil_append, List.mem_append] at hMember
    simp only [Forest.regionInfos, List.mem_append]
    rw [outerBlocks_regions] at ihInner
    rw [outerBlocks_ops] at ihRest
    rcases hMember with hFirst | hLater
    · rcases ihInner hInner hFirst with hNone | ⟨r, hIn, hHolds⟩
      · cases hNone
      · exact .inr ⟨r, .inl hIn, hHolds⟩
    · rcases ihRest hRest hLater with hNone | ⟨r, hIn, hHolds⟩
      · cases hNone
      · exact .inr ⟨r, .inr hIn, hHolds⟩
  | region r inner rest ihInner ihRest =>
    rcases hShows with ⟨⟨-, -, hHeads⟩, hInner, hRest⟩
    simp only [blockIds, Forest.gather, List.mem_append] at hMember
    simp only [Forest.regionInfos, List.mem_cons, List.mem_append]
    rw [outerBlocks_blocks] at ihInner
    rw [outerBlocks_regions] at ihRest
    rcases hMember with hFirst | hLater
    · rcases ihInner hInner hFirst with hHead | ⟨s, hIn, hHolds⟩
      · exact .inr ⟨r, .inl rfl, hHeads b hHead⟩
      · exact .inr ⟨s, .inr (.inl hIn), hHolds⟩
    · rcases ihRest hRest hLater with hNone | ⟨s, hIn, hHolds⟩
      · cases hNone
      · exact .inr ⟨s, .inr (.inr hIn), hHolds⟩
  | block h inner rest ihInner ihRest =>
    rcases hShows with ⟨-, -, hInner, hRest⟩
    simp only [blockIds, Forest.gather, List.cons_append,
      List.nil_append, List.mem_cons, List.mem_append] at hMember
    simp only [Forest.regionInfos, List.mem_append, outerBlocks, List.mem_cons]
    rw [outerBlocks_ops] at ihInner
    rcases hMember with hHead | hFirst | hLater
    · exact .inl (.inl hHead)
    · rcases ihInner hInner hFirst with hNone | ⟨r, hIn, hHolds⟩
      · cases hNone
      · exact .inr ⟨r, .inl hIn, hHolds⟩
    · rcases ihRest hRest hLater with hHead | ⟨r, hIn, hHolds⟩
      · exact .inl (.inr hHead)
      · exact .inr ⟨r, .inr hIn, hHolds⟩

end Placed

----
-- New handles
----

/- Distinct entities whose handles lie in a range. -/
structure Ranged {β : Type} (index : β → Nat) (low high : Nat) (xs : List β) : Prop where
  bounds : ∀ x ∈ xs, low ≤ index x ∧ index x < high
  nodup : xs.Nodup

namespace Ranged

variable {β : Type} {index : β → Nat} {xs ys : List β}

theorem nil : Ranged index low high [] where
  bounds := by
    intro x hMember
    cases hMember
  nodup := List.nodup_nil

theorem singleton {x : β} (hBounds : low ≤ index x ∧ index x < high) :
    Ranged index low high [x] where
  bounds := by
    intro y hMember
    rw [List.mem_singleton] at hMember
    rw [hMember]
    exact hBounds
  nodup := List.nodup_singleton x

theorem append (hFirst : Ranged index low middle xs) (hSecond : Ranged index middle high ys)
    (hLow : low ≤ middle) (hHigh : middle ≤ high) : Ranged index low high (xs ++ ys) where
  bounds := by
    intro x hMember
    rcases List.mem_append.mp hMember with hIn | hIn
    · have hBounds := hFirst.bounds x hIn
      omega
    · have hBounds := hSecond.bounds x hIn
      omega
  nodup := by
    rw [List.nodup_append]
    refine ⟨hFirst.nodup, hSecond.nodup, ?_⟩
    intro x hIn y hOther hSame
    have hBelow := hFirst.bounds x hIn
    have hAbove := hSecond.bounds y hOther
    rw [hSame] at hBelow
    omega

theorem widen (hRanged : Ranged index low high xs) (hLow : low' ≤ low) :
    Ranged index low' high xs where
  bounds := by
    intro x hIn
    have hBounds := hRanged.bounds x hIn
    omega
  nodup := hRanged.nodup

end Ranged

namespace Placed

/-
  The operations and regions are distinct. They were created
  between two moments, except for some regions that were given.
-/
structure Fresh (before after : Handles) (given : List RegionId) (c : Placed α l) : Prop where
  ops : Ranged OpId.index before.op after.op c.opIds
  regions : ∀ r ∈ c.regionInfos, r ∈ given ∨ before.region ≤ r.index ∧ r.index < after.region
  nodup : c.regionInfos.Nodup

namespace Fresh

variable {h₀ h₁ : Handles}

theorem nil : Fresh h₀ h₁ given (.nil : Placed α l) where
  ops := .nil
  regions := by
    intro r hMember
    cases hMember
  nodup := List.nodup_nil

theorem ranged (hFresh : Fresh h₀ h₁ [] c) :
    Ranged RegionId.index h₀.region h₁.region c.regionInfos where
  bounds := by
    intro r hMember
    rcases hFresh.regions r hMember with hGiven | hNew
    · cases hGiven
    · exact hNew
  nodup := hFresh.nodup

/- The regions of an operation were created with it. -/
theorem ranged_given (hFresh : Fresh h₁ h₂ given c) (hGiven :
      ∀ r ∈ given, h₀.region ≤ r.index ∧ r.index < h₁.region)
    (hFirst : h₀.Before h₁) (hSecond : h₁.Before h₂) :
    Ranged RegionId.index h₀.region h₂.region c.regionInfos where
  bounds := by
    intro r hMember
    have hLow := hFirst.region
    have hHigh := hSecond.region
    rcases hFresh.regions r hMember with hOld | hNew
    · have hBounds := hGiven r hOld
      omega
    · omega
  nodup := hFresh.nodup

theorem of_ranged (hOps : Ranged OpId.index h₀.op h₁.op c.opIds) (hRegions :
      Ranged RegionId.index h₀.region h₁.region c.regionInfos) : Fresh h₀ h₁ [] c where
  ops := hOps
  regions := fun r hMember => .inr (hRegions.bounds r hMember)
  nodup := hRegions.nodup

theorem widen (hFresh : Fresh h₁ h₂ [] c) (hBefore : h₀.Before h₁) : Fresh h₀ h₂ [] c :=
  of_ranged (hFresh.ops.widen hBefore.op) (hFresh.ranged.widen hBefore.region)

theorem op {o : OpId} {n : OpNode α} {inner : Placed α .regions} {rest : Placed α .ops}
    (hHead : h₀.op ≤ o.index ∧ o.index < h₁.op)
    (hGiven : ∀ r ∈ given, h₀.region ≤ r.index ∧ r.index < h₁.region)
    (hInner : Fresh h₁ h₂ given inner) (hRest : Fresh h₂ h₃ [] rest) (hFirst : h₀.Before h₁)
    (hSecond : h₁.Before h₂) (hThird : h₂.Before h₃) : Fresh h₀ h₃ [] (.op (o, n) inner rest) := by
  apply of_ranged
  · have hNested := hInner.ops.append hRest.ops hSecond.op hThird.op
    exact (Ranged.singleton hHead).append hNested hFirst.op (Nat.le_trans hSecond.op hThird.op)
  · exact (hInner.ranged_given hGiven hFirst hSecond).append hRest.ranged
      (Nat.le_trans hFirst.region hSecond.region) hThird.region

theorem block {args : List (α × Ty)} {inner : Placed α .ops} {rest : Placed α .blocks}
    (hInner : Fresh h₀ h₁ [] inner) (hRest : Fresh h₁ h₂ [] rest) (hFirst : h₀.Before h₁)
    (hSecond : h₁.Before h₂) : Fresh h₀ h₂ [] (.block (b, args) inner rest) := by
  apply of_ranged
  · exact hInner.ops.append hRest.ops hFirst.op hSecond.op
  · exact hInner.ranged.append hRest.ranged hFirst.region hSecond.region

theorem region {inner : Placed α .blocks} {rest : Placed α .regions}
    (hGiven : (r :: given).Nodup) (hBelow : ∀ s ∈ r :: given, s.index < h₀.region)
    (hInner : Fresh h₀ h₁ [] inner) (hRest : Fresh h₁ h₂ given rest) (hFirst : h₀.Before h₁)
    (hSecond : h₁.Before h₂) : Fresh h₀ h₂ (r :: given) (.region r inner rest) := by
  have hRegion₁ := hFirst.region
  have hRegion₂ := hSecond.region
  have hInfos : Forest.regionInfos (.region r inner rest) =
        r :: (inner.regionInfos ++ rest.regionInfos) := rfl
  have hNew := hInner.ranged.bounds
  have hOld : r.index < h₀.region := hBelow r (.head _)
  refine
    { ops := hInner.ops.append hRest.ops hFirst.op hSecond.op
      regions := ?_
      nodup := ?_ }
  · intro s hMember
    rw [hInfos, List.mem_cons, List.mem_append] at hMember
    rw [List.mem_cons]
    rcases hMember with hSame | hIn | hIn
    · exact .inl (.inl hSame)
    · have hBounds := hNew s hIn
      exact .inr (by omega)
    · rcases hRest.regions s hIn with hLater | hBounds
      · exact .inl (.inr hLater)
      · exact .inr (by omega)
  · rw [hInfos, List.nodup_cons, List.mem_append, List.nodup_append]
    rw [List.nodup_cons] at hGiven
    refine ⟨?_, hInner.nodup, hRest.nodup, ?_⟩
    · rintro (hIn | hIn)
      · have hBounds := hNew r hIn
        omega
      · rcases hRest.regions r hIn with hLater | hBounds
        · exact hGiven.1 hLater
        · omega
    · intro s hIn t hOther hSame
      have hBounds := hNew s hIn
      subst hSame
      rcases hRest.regions s hOther with hLater | hAbove
      · have hEarly := hBelow s (.tail r hLater)
        omega
      · omega

end Fresh

end Placed

end FortranIR
