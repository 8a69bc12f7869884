import FortranIR.Proofs.Change

/-
  This file states what the removal of an operation leaves of a
  module.

  An operation owns its results and regions, and with these the
  placed blocks of its regions and their arguments. Deleting
  operations erases exactly them and what they own.

  Main declarations:
    * `Erases`
    * `Module.removeOp_eq_ok`
-/

namespace FortranIR

variable {m₁ : Module} {os : List OpId} {o : OpId} {op : Operation}

----
-- Maps without some entries
----

/- A map has lost exactly the entries of some keys. -/
def Erases {β : Type} (gone : Nat → Prop) (t t' : Std.TreeMap Nat β) : Prop := ∀ k : Nat,
    (gone k → t'[k]? = none) ∧ (¬ gone k → t'[k]? = t[k]?)

namespace Erases

variable {β : Type} {t t₁ t₂ t₃ : Std.TreeMap Nat β}

theorem refl (t : Std.TreeMap Nat β) (hNone : ∀ k, ¬ gone k) : Erases gone t t :=
  fun k => ⟨fun hGone => absurd hGone (hNone k), fun _ => rfl⟩

theorem of_erase (t : Std.TreeMap Nat β) (k : Nat) : Erases (fun a => k = a) t (t.erase k) := by
  intro a
  rw [getElem?_erase_nat]
  exact ⟨fun hSame => if_pos hSame, fun hOther => if_neg hOther⟩

/- An entry is left if it was there and is not gone. -/
theorem some_iff (hErases : Erases gone t₁ t₂) {x : β} :
    t₂[k]? = some x ↔ t₁[k]? = some x ∧ ¬ gone k := by
  by_cases hGone : gone k
  · simp [(hErases k).1 hGone, hGone]
  · simp [(hErases k).2 hGone, hGone]

/- Only keys that have an entry matter. -/
theorem congr (hErases : Erases gone₁ t₁ t₂)
    (hSame : ∀ k x, t₁[k]? = some x → (gone₁ k ↔ gone₂ k)) : Erases gone₂ t₁ t₂ := by
  intro k
  cases hEntry : t₁[k]? with
  | none =>
    have hLeft : t₂[k]? = none := by
      by_cases hGone : gone₁ k
      · exact (hErases k).1 hGone
      · rw [(hErases k).2 hGone, hEntry]
    exact ⟨fun _ => hLeft, fun _ => hLeft⟩
  | some x =>
    rw [← hSame k x hEntry, ← hEntry]
    exact hErases k

theorem trans (hFirst : Erases gone₁ t₁ t₂) (hSecond : Erases gone₂ t₂ t₃) :
    Erases (fun k => gone₁ k ∨ gone₂ k) t₁ t₃ := by
  intro k
  by_cases hGone₂ : gone₂ k
  · exact ⟨fun _ => (hSecond k).1 hGone₂, fun hKept => absurd (.inr hGone₂) hKept⟩
  · rw [(hSecond k).2 hGone₂]
    simpa [hGone₂] using hFirst k

/-
  What belongs to entries that are lost now or later: their
  owners were there before.
-/
theorem owned_or {ι : Type} {index : ι → Nat} (hErases : Erases gone t₁ t₂) (gone₁ gone₂ : ι → Prop)
    (hGone : ∀ i, gone (index i) ↔ gone₁ i) (p : β → Prop) :
    ((∃ i x, gone₁ i ∧ t₁[index i]? = some x ∧ p x) ∨
        ∃ i x, gone₂ i ∧ t₂[index i]? = some x ∧ p x) ↔
      ∃ i x, (gone₁ i ∨ gone₂ i) ∧ t₁[index i]? = some x ∧ p x := by
  constructor
  · rintro (⟨i, x, hIn, hEntry, hOwns⟩ | ⟨i, x, hIn, hEntry, hOwns⟩)
    · exact ⟨i, x, .inl hIn, hEntry, hOwns⟩
    · exact ⟨i, x, .inr hIn, (hErases.some_iff.mp hEntry).1, hOwns⟩
  · rintro ⟨i, x, hIn, hEntry, hOwns⟩
    by_cases hLost : gone₁ i
    · exact .inl ⟨i, x, hLost, hEntry, hOwns⟩
    · have hLeft : ¬ gone (index i) := fun hNow => hLost ((hGone i).mp hNow)
      exact .inr ⟨i, x, hIn.resolve_left hLost, hErases.some_iff.mpr ⟨hEntry, hLeft⟩, hOwns⟩

end Erases

/- A map has lost the entries of some keys, and the others have been changed. -/
def Trims {β : Type} (gone : Nat → Prop) (f : β → β) (t t' : Std.TreeMap Nat β) : Prop :=
  ∀ (k : Nat) (x' : β), t'[k]? = some x' ↔ ∃ x, t[k]? = some x ∧ ¬ gone k ∧ f x = x'

theorem Erases.trims {β : Type} {t t₁ t' : Std.TreeMap Nat β}
    {f : Nat → β → β} {g : β → β} (hErases : Erases gone' t₁ t')
    (hEntries : ∀ k : Nat, t₁[k]? = t[k]?.map (f k)) (hGone : ∀ k, gone' k ↔ gone k)
    (hSame : ∀ k x, t[k]? = some x → ¬ gone k → f k x = g x) : Trims gone g t t' := by
  intro k x'
  rw [hErases.some_iff, hEntries, Option.map_eq_some_iff, hGone]
  constructor
  · rintro ⟨⟨x, hEntry, rfl⟩, hLeft⟩
    exact ⟨x, hEntry, hLeft, (hSame k x hEntry hLeft).symm⟩
  · rintro ⟨x, hEntry, hLeft, rfl⟩
    exact ⟨⟨x, hEntry, hSame k x hEntry hLeft⟩, hLeft⟩

----
-- Ownership
----

namespace Module

/- A region of one of some operations. -/
def OwnsRegion (m : Module) (os : OpId → Prop) (r : RegionId) : Prop :=
  ∃ o op, os o ∧ m.ops[o.index]? = some op ∧ r ∈ op.regions

/- A placed block in a region of one of some operations. -/
def OwnsBlock (m : Module) (os : OpId → Prop) (b : BlockId) : Prop := ∃ r region,
    m.OwnsRegion os r ∧ m.regions[r.index]? = some region ∧ b ∈ region.blocks

/- A result of some operations, or an argument of their blocks. -/
def OwnsValue (m : Module) (os : OpId → Prop) (v : ValueId) : Prop :=
  (∃ o op, os o ∧ m.ops[o.index]? = some op ∧ v ∈ op.results) ∨ ∃ b info, m.OwnsBlock os b ∧
      m.blocks[b.index]? = some info ∧ v ∈ info.args

/-
  The module has lost some operations and what they own. Their
  results had no users.
-/
structure Without (gone : OpId → Prop) (m m' : Module) : Prop where
  ops : Erases (fun k => gone ⟨k⟩) m.ops m'.ops
  places : Erases (fun k => gone ⟨k⟩) m.places m'.places
  regions : Erases (fun k => m.OwnsRegion gone ⟨k⟩) m.regions m'.regions
  blocks : Erases (fun k => m.OwnsBlock gone ⟨k⟩) m.blocks m'.blocks
  values : Erases (fun k => m.OwnsValue gone ⟨k⟩) m.values m'.values
  top : m'.top = m.top
  handles : m'.handles = m.handles
  unused : ∀ o op, gone o → m.ops[o.index]? = some op →
      ∀ v ∈ op.results, ∃ info, m.values[v.index]? = some info ∧ info.users = []

variable {m m' : Module}

theorem Without.refl (m : Module) : m.Without (fun _ => False) m where
  ops := .refl _ fun _ hGone => hGone
  places := .refl _ fun _ hGone => hGone
  regions := .refl _ (by rintro k ⟨o, op, hGone, -⟩; exact hGone)
  blocks := .refl _ (by
    rintro k ⟨r, region, ⟨o, op, hGone, -⟩, -⟩
    exact hGone)
  values := .refl _ (by
    rintro k (⟨o, op, hGone, -⟩ | ⟨b, info, ⟨r, region, ⟨o, op, hGone, -⟩, -⟩, -⟩)
    · exact hGone
    · exact hGone)
  top := rfl
  handles := rfl
  unused := nofun

/- Operations that are lost one after another. -/
theorem Without.trans (hFirst : m₁.Without gone₁ m₂) (hSecond : m₂.Without gone₂ m₃) :
    m₁.Without (fun o => gone₁ o ∨ gone₂ o) m₃ := by
  have hRegion : ∀ r, m₁.OwnsRegion gone₁ r ∨ m₂.OwnsRegion gone₂ r ↔
        m₁.OwnsRegion (fun o => gone₁ o ∨ gone₂ o) r :=
    fun r => hFirst.ops.owned_or _ _ (fun _ => Iff.rfl) fun op => r ∈ op.regions
  have hBlock : ∀ b, m₁.OwnsBlock gone₁ b ∨ m₂.OwnsBlock gone₂ b ↔
        m₁.OwnsBlock (fun o => gone₁ o ∨ gone₂ o) b := by
    intro b
    refine (hFirst.regions.owned_or _ _ (fun _ => Iff.rfl) fun region => b ∈ region.blocks).trans ?_
    simp only [hRegion]
    rfl
  have hValue : ∀ v, m₁.OwnsValue gone₁ v ∨ m₂.OwnsValue gone₂ v ↔
        m₁.OwnsValue (fun o => gone₁ o ∨ gone₂ o) v := by
    intro v
    refine or_or_or_comm.trans (or_congr ?_ ?_)
    · exact hFirst.ops.owned_or _ _ (fun _ => Iff.rfl) fun op => v ∈ op.results
    · refine (hFirst.blocks.owned_or _ _ (fun _ => Iff.rfl) fun info => v ∈ info.args).trans ?_
      simp only [hBlock]
  exact
    { ops := hFirst.ops.trans hSecond.ops
      places := hFirst.places.trans hSecond.places
      regions := (hFirst.regions.trans hSecond.regions).congr fun k _ _ => hRegion ⟨k⟩
      blocks := (hFirst.blocks.trans hSecond.blocks).congr fun k _ _ => hBlock ⟨k⟩
      values := (hFirst.values.trans hSecond.values).congr fun k _ _ => hValue ⟨k⟩
      top := hSecond.top.trans hFirst.top
      handles := hSecond.handles.trans hFirst.handles
      unused := by
        intro o op hGone hOp v hResult
        by_cases hGone₁ : gone₁ o
        · exact hFirst.unused o op hGone₁ hOp v hResult
        · rcases hSecond.unused o op (hGone.resolve_left hGone₁)
              (hFirst.ops.some_iff.mpr ⟨hOp, hGone₁⟩) v hResult with ⟨info, hInfo, hNone⟩
          exact ⟨info, (hFirst.values.some_iff.mp hInfo).1, hNone⟩ }

theorem Without.congr (hWithout : m.Without gone₁ m') (hSame : ∀ o, gone₁ o ↔ gone₂ o) :
    m.Without gone₂ m' := by
  have hEq : gone₁ = gone₂ := funext fun o => propext (hSame o)
  exact hEq ▸ hWithout

----
-- Deletion
----

theorem deleteResult_eq_ok (hRun : deleteResult v m = .ok () m') : ∃ info,
      m.values[v.index]? = some info ∧ info.users = [] ∧
        m' = { m with values := m.values.erase v.index } := by
  rw [deleteResult, get_bind_run] at hRun
  cases hInfo : m.values[v.index]? with
  | none =>
    simp only [hInfo] at hRun
    cases hRun
  | some info =>
    simp only [hInfo, modify_bind_run] at hRun
    cases hUsers : info.users with
    | cons o users =>
      rw [hUsers] at hRun
      cases hRun
    | nil =>
      rw [hUsers] at hRun
      cases hRun
      exact ⟨info, rfl, hUsers, rfl⟩

/- Results are deleted, which exist and have no users. -/
theorem deleteResults_eq_ok {vs : List ValueId} (hRun : vs.forM deleteResult m = .ok () m') :
    ∃ values, m' = { m with values := values } ∧ Erases (fun k => ⟨k⟩ ∈ vs) m.values values ∧
      ∀ v ∈ vs, ∃ info, m.values[v.index]? = some info ∧ info.users = [] := by
  induction vs generalizing m with
  | nil =>
    cases hRun
    exact ⟨_, rfl, .refl _ fun _ => by simp, by simp⟩
  | cons v vs ih =>
    rcases bind_eq_ok hRun with ⟨_, m₁, hFirst, hRest⟩
    rcases deleteResult_eq_ok hFirst with ⟨info, hInfo, hUsers, rfl⟩
    rcases ih hRest with ⟨values, rfl, hErases, hNone⟩
    refine ⟨values, rfl, ?_, List.forall_mem_cons.mpr ⟨⟨info, hInfo, hUsers⟩, ?_⟩⟩
    · refine ((Erases.of_erase _ _).trans hErases).congr fun k x _ => ?_
      rw [List.mem_cons, ValueId.ext_iff, eq_comm]
    · intro w hLater
      rcases hNone w hLater with ⟨other, hOther, hUnused⟩
      exact ⟨other, ((Erases.of_erase _ _).some_iff.mp hOther).1, hUnused⟩

theorem deleteBlock_eq_ok (hRun : deleteBlock b m = .ok () m') : ∃ info values,
      m.blocks[b.index]? = some info ∧
        m' = { m with blocks := m.blocks.erase b.index, values := values } ∧
        Erases (fun k => ⟨k⟩ ∈ info.args) m.values values := by
  rw [deleteBlock, get_bind_run] at hRun
  cases hInfo : m.blocks[b.index]? with
  | none =>
    simp only [hInfo] at hRun
    cases hRun
  | some info =>
    simp only [hInfo] at hRun
    cases hRun
    refine ⟨info, _, rfl, rfl, fun k => ?_⟩
    simp only [getElem?_foldl_erase ValueId.index, ValueId.mem_map_index]
    exact ⟨fun hGone => if_pos hGone, fun hKept => if_neg hKept⟩

/- Blocks are deleted with their arguments. -/
theorem deleteBlocks_eq_ok {bs : List BlockId} (hRun : bs.forM deleteBlock m = .ok () m') :
    ∃ blocks values, m' = { m with blocks := blocks, values := values } ∧
      Erases (fun k => ⟨k⟩ ∈ bs) m.blocks blocks ∧
      Erases (fun k => ∃ b info, b ∈ bs ∧ m.blocks[b.index]? = some info ∧ ⟨k⟩ ∈ info.args)
        m.values values := by
  induction bs generalizing m with
  | nil =>
    cases hRun
    exact ⟨_, _, rfl, .refl _ fun _ => by simp, .refl _ fun _ => by simp⟩
  | cons b bs ih =>
    rcases bind_eq_ok hRun with ⟨_, m₁, hFirst, hRest⟩
    rcases deleteBlock_eq_ok hFirst with ⟨info, values₁, hInfo, rfl, hArgs⟩
    rcases ih hRest with ⟨blocks, values, rfl, hBlocks, hValues⟩
    have hLeft := Erases.of_erase m.blocks b.index
    refine ⟨blocks, values, rfl, ?_, ?_⟩
    · refine (hLeft.trans hBlocks).congr fun k x _ => ?_
      rw [List.mem_cons, BlockId.ext_iff, eq_comm]
    · refine (hArgs.trans hValues).congr fun k x _ => ?_
      have hOwner := hLeft.owned_or (· = b) (· ∈ bs)
        (fun c => show b.index = c.index ↔ c = b by rw [BlockId.ext_iff, eq_comm]) fun info => ⟨k⟩ ∈ info.args
      simpa [hInfo] using hOwner

theorem deleteRegion_eq_ok (hRun : deleteRegion r m = .ok () m') :
    ∃ region, m.regions[r.index]? = some region ∧
      region.blocks.forM deleteBlock { m with regions := m.regions.erase r.index } = .ok () m' := by
  rw [deleteRegion, get_bind_run] at hRun
  cases hRegion : m.regions[r.index]? with
  | none =>
    simp only [hRegion] at hRun
    cases hRun
  | some region =>
    simp only [hRegion, modify_bind_run] at hRun
    exact ⟨region, rfl, hRun⟩

/- Regions are deleted with their placed blocks. -/
theorem deleteRegions_eq_ok {rs : List RegionId} (hRun : rs.forM deleteRegion m = .ok () m') :
    ∃ regions blocks values, m' = { m with
          regions := regions
          blocks := blocks
          values := values } ∧ Erases (fun k => ⟨k⟩ ∈ rs) m.regions regions ∧
      Erases (fun k => ∃ r region, r ∈ rs ∧ m.regions[r.index]? = some region ∧ ⟨k⟩ ∈ region.blocks)
        m.blocks blocks ∧
      Erases (fun k => ∃ b info, (∃ r region, r ∈ rs ∧ m.regions[r.index]? = some region ∧
              b ∈ region.blocks) ∧ m.blocks[b.index]? = some info ∧ ⟨k⟩ ∈ info.args)
        m.values values := by
  induction rs generalizing m with
  | nil =>
    cases hRun
    exact ⟨_, _, _, rfl, .refl _ fun _ => by simp,
      .refl _ fun _ => by simp, .refl _ fun _ => by simp⟩
  | cons r rs ih =>
    rcases bind_eq_ok hRun with ⟨_, m₁, hFirst, hRest⟩
    rcases deleteRegion_eq_ok hFirst with ⟨region, hRegion, hBlocks⟩
    rcases deleteBlocks_eq_ok hBlocks with ⟨blocks₁, values₁, rfl, hBlocks₁, hValues₁⟩
    rcases ih hRest with ⟨regions, blocks, values, rfl, hRegions₂, hBlocks₂, hValues₂⟩
    have hLeft := Erases.of_erase m.regions r.index
    -- a block of the regions belongs to the first one, or
    -- to a later one that is still there
    have hOwner : ∀ b, (b ∈ region.blocks ∨ ∃ s other, s ∈ rs ∧
            (m.regions.erase r.index)[s.index]? = some other ∧ b ∈ other.blocks) ↔
          ∃ s other, s ∈ r :: rs ∧ m.regions[s.index]? = some other ∧ b ∈ other.blocks := by
      intro b
      have hEither := hLeft.owned_or (· = r) (· ∈ rs)
        (fun s => show r.index = s.index ↔ s = r by rw [RegionId.ext_iff, eq_comm])
        fun other => b ∈ other.blocks
      simpa [hRegion] using hEither
    refine ⟨regions, blocks, values, rfl, ?_, ?_, ?_⟩
    · refine (hLeft.trans hRegions₂).congr fun k x _ => ?_
      rw [List.mem_cons, RegionId.ext_iff, eq_comm]
    · exact (hBlocks₁.trans hBlocks₂).congr fun k _ _ => hOwner ⟨k⟩
    · refine (hValues₁.trans hValues₂).congr fun k x _ => ?_
      simp only [← hOwner]
      exact hBlocks₁.owned_or _ _ (fun _ => Iff.rfl) fun info => ⟨k⟩ ∈ info.args

/- An operation is deleted with everything it owns. -/
theorem deleteOp_eq_ok (hRun : deleteOp o m = .ok op m') : m.Without (· = o) m' := by
  rcases read_bind_eq_ok_iff.mp hRun with ⟨found, hFound, hRest⟩
  rcases bind_eq_ok hRest with ⟨_, _, hErase, hRest⟩
  cases hErase
  rcases bind_eq_ok hRest with ⟨_, m₁, hResults, hRest⟩
  rcases bind_eq_ok hRest with ⟨_, m₂, hRegions, hDone⟩
  cases hDone
  rcases deleteResults_eq_ok hResults with ⟨values₁, rfl, hValues₁, hUnused⟩
  rcases deleteRegions_eq_ok hRegions with
    ⟨regions, blocks, values, rfl, hRegions₂, hBlocks₂, hValues₂⟩
  have hEntry := op_eq_ok_iff.mp hFound
  have hRegion : ∀ r, m.OwnsRegion (· = o) r ↔ r ∈ op.regions := by simp [OwnsRegion, hEntry]
  have hKey : ∀ k, o.index = k ↔ (⟨k⟩ : OpId) = o := by
    intro k
    rw [OpId.ext_iff, eq_comm]
  exact
    { ops := (Erases.of_erase _ _).congr fun k _ _ => hKey k
      places := (Erases.of_erase _ _).congr fun k _ _ => hKey k
      regions := hRegions₂.congr fun k _ _ => (hRegion ⟨k⟩).symm
      blocks := hBlocks₂.congr fun k _ _ => by simp only [OwnsBlock, hRegion]
      values := (hValues₁.trans hValues₂).congr fun k _ _ => by
        simp [OwnsValue, OwnsBlock, hRegion, hEntry]
      top := rfl
      handles := rfl
      unused := by
        rintro u found rfl hFound
        cases hEntry.symm.trans hFound
        exact hUnused }

/- Operations are deleted one after another. -/
theorem deleteOps_eq_ok (hRun : (os.forM fun o => do let _ ← deleteOp o) m = .ok () m') :
    m.Without (· ∈ os) m' := by
  induction os generalizing m with
  | nil =>
    cases hRun
    exact (Without.refl _).congr (by simp)
  | cons o os ih =>
    rcases bind_eq_ok hRun with ⟨_, m₁, hFirst, hRest⟩
    rcases bind_eq_ok hFirst with ⟨op, _, hDelete, hDone⟩
    cases hDone
    exact ((deleteOp_eq_ok hDelete).trans (ih hRest)).congr fun u => List.mem_cons.symm

----
-- Removal
----

/- Users that are dropped first, and then some more. -/
theorem filter_dropped (uses : OpId → Bool) (users : List OpId) :
    (users.filter fun u => !(u == o && uses u)).filter (fun u => !(os.contains u && uses u)) =
      users.filter fun u => !((o :: os).contains u && uses u) := by
  rw [List.filter_filter]
  congr 1
  funext u
  rw [List.contains_cons]
  cases u == o <;> cases os.contains u <;> simp

/- Some operations are no longer among the users of anything. -/
theorem dropAllUses_eq_ok (hRun : os.forM dropUses m = .ok () m') :
    ∃ (values : Std.TreeMap Nat ValueInfo) (blocks : Std.TreeMap Nat BlockInfo),
      m' = { m with values := values, blocks := blocks } ∧
      (∀ k : Nat, values[k]? = m.values[k]?.map fun info =>
        { info with users := info.users.filter fun u => !(os.contains u && m.uses u ⟨k⟩) }) ∧
      ∀ k : Nat, blocks[k]? = m.blocks[k]?.map fun info =>
        { info with users := info.users.filter fun u =>
            !(os.contains u && m.branchesTo u ⟨k⟩) } := by
  induction os generalizing m with
  | nil =>
    cases hRun
    exact ⟨_, _, rfl, by simp, by simp⟩
  | cons o os ih =>
    rcases bind_eq_ok hRun with ⟨_, m₁, hFirst, hRest⟩
    rcases dropUses_eq_ok hFirst with ⟨op, values₁, blocks₁, -, rfl, hValues₁, hBlocks₁⟩
    rcases ih hRest with ⟨values, blocks, rfl, hValues, hBlocks⟩
    refine ⟨values, blocks, rfl, ?_, ?_⟩
    · intro k
      rw [hValues k, hValues₁ k, Option.map_map]
      simp only [Function.comp_def, ← filter_dropped]
      rfl
    · intro k
      rw [hBlocks k, hBlocks₁ k, Option.map_map]
      simp only [Function.comp_def, ← filter_dropped]
      rfl

/- An operation is taken out of its block or the module level. -/
theorem unplace_eq_ok (hRun : unplace o m = .ok () m') : (∃ b info region os,
      m.places[o.index]? = some b ∧ m.blocks[b.index]? = some info ∧
      m.regions[info.region.index]? = some region ∧ region.ops? b = some os ∧ m' = if o ∈ os then
          { m with
            regions := m.regions.modify info.region.index fun r =>
              { r with layout := updateLayout b (·.erase o) r.layout }
            places := m.places.erase o.index }
        else m) ∨ m.places[o.index]? = none ∧ m' = { m with top := m.top.erase o } := by
  rcases bind_eq_ok hRun with ⟨_, _, hGet, hRest⟩
  cases hGet
  cases hPlace : m.parentBlock? o with
  | none =>
    simp only [hPlace] at hRest
    cases hRest
    exact .inr ⟨hPlace, rfl⟩
  | some b =>
    simp only [hPlace] at hRest
    rcases read_bind_eq_ok_iff.mp hRest with ⟨info, hInfo, hNext⟩
    rcases read_bind_eq_ok_iff.mp hNext with ⟨region, hRegion, hOps⟩
    cases hFound : region.ops? b with
    | none =>
      simp only [hFound] at hOps
      cases hOps
    | some os =>
      simp only [hFound, List.contains_eq_mem, decide_eq_true_eq] at hOps
      refine .inl ⟨b, info, region, os, hPlace,
        block_eq_ok_iff.mp hInfo, region_eq_ok_iff.mp hRegion, hFound, ?_⟩
      by_cases hIn : o ∈ os
      · rw [if_pos hIn] at hOps ⊢
        rcases bind_eq_ok hOps with ⟨_, m₁, hUpdate, hDone⟩
        rcases updateRegion_eq_ok_iff.mp hUpdate with ⟨-, rfl⟩
        cases hDone
        rfl
      · rw [if_neg hIn] at hOps ⊢
        cases hOps
        rfl

/- The module with an operation out of its place. -/
structure Unplaces (o : OpId) (m m' : Module) : Prop where
  ops : m'.ops = m.ops
  values : m'.values = m.values
  blocks : m'.blocks = m.blocks
  handles : m'.handles = m.handles
  places : ∀ p : OpId, p ≠ o → m'.places[p.index]? = m.places[p.index]?
  top : m.places[o.index]? ≠ none ∧ m'.top = m.top ∨
      m.places[o.index]? = none ∧ m'.top = m.top.erase o

theorem unplace_unplaces (hRun : unplace o m = .ok () m') : m.Unplaces o m' := by
  rcases unplace_eq_ok hRun with ⟨b, info, region, os, hPlace, -, -, -, rfl⟩ | ⟨hNone, rfl⟩
  · have hPlaced : m.places[o.index]? ≠ none := by simp [hPlace]
    split
    · refine ⟨rfl, rfl, rfl, rfl, fun p hOther => ?_, .inl ⟨hPlaced, rfl⟩⟩
      exact (Erases.of_erase _ _ p.index).2 fun hEq => hOther (OpId.ext hEq.symm)
    · exact ⟨rfl, rfl, rfl, rfl, fun _ _ => rfl, .inl ⟨hPlaced, rfl⟩⟩
  · exact ⟨rfl, rfl, rfl, rfl, fun _ _ => rfl, .inr ⟨hNone, rfl⟩⟩

/- A region was there before, with the same blocks, which may have had one more operation. -/
theorem unplace_region (hRun : unplace o m = .ok () m') {k : Nat} {region' : RegionInfo}
    (hRegion' : m'.regions[k]? = some region') : ∃ region : RegionInfo,
      m.regions[k]? = some region ∧ region.parent = region'.parent ∧
      region.blocks = region'.blocks ∧
      ∀ b os, region'.ops? b = some os → ∃ before, region.ops? b = some before ∧ os ⊆ before := by
  have hSame : ∀ region : RegionInfo, ∀ b os, region.ops? b = some os →
      ∃ before, region.ops? b = some before ∧ os ⊆ before :=
    fun _ _ os hOs => ⟨os, hOs, List.Subset.refl os⟩
  rcases unplace_eq_ok hRun with ⟨b, info, region, os, -, -, -, -, rfl⟩ | ⟨-, rfl⟩
  · split at hRegion'
    · rcases entry_of_modify hRegion' with ⟨found, hFound, rfl | rfl⟩
      · refine ⟨found, hFound, rfl,
          (updateLayout_blocks b (·.erase o) found.layout).symm, fun c cs hOps => ?_⟩
        rw [RegionInfo.ops?, lookup_updateLayout, Option.map_eq_some_iff] at hOps
        rcases hOps with ⟨before, hBefore, rfl⟩
        refine ⟨before, hBefore, ?_⟩
        split
        · exact List.erase_subset
        · exact List.Subset.refl before
      · exact ⟨found, hFound, rfl, rfl, hSame found⟩
    · exact ⟨region', hRegion', rfl, rfl, hSame region'⟩
  · exact ⟨region', hRegion', rfl, rfl, hSame region'⟩

/- The operations nested in one begin with that one. -/
theorem mem_of_walkOp (hWalk : m.walkOp depth o = .ok nested) :
    o ∈ nested := by
  cases depth with
  | zero => cases hWalk
  | succ depth =>
    rcases bind_eq_ok_iff.mp hWalk with ⟨op, -, hRest⟩
    rcases bind_eq_ok_iff.mp hRest with ⟨lists, -, hDone⟩
    cases hDone
    exact .head _

/-
  An operation is removed: it loses its place, everything nested
  in it is dropped from the lists of users, and then deleted
  with what it owns.
-/
theorem removeOp_eq_ok (hRun : removeOp o m = .ok op m') : ∃ m₁ nested m₂, unplace o m = .ok () m₁ ∧
      m₁.walkOp m₁.depthLimit o = .ok nested ∧ nested.forM dropUses m₁ = .ok () m₂ ∧
      m₂.Without (· ∈ nested) m' := by
  rcases bind_eq_ok hRun with ⟨_, m₁, hUnplace, hRest⟩
  rcases read_bind_eq_ok_iff.mp hRest with ⟨nested, hWalk, hRest⟩
  rcases bind_eq_ok hRest with ⟨_, m₂, hDrop, hRest⟩
  rcases bind_eq_ok hRest with ⟨_, m₃, hInner, hLast⟩
  have hAll : ∀ u, u ∈ nested.reverse.filter (· ≠ o) ∨ u = o ↔ u ∈ nested := by
    intro u
    have hSelf := mem_of_walkOp hWalk
    simp only [List.mem_filter, List.mem_reverse, decide_eq_true_eq]
    constructor
    · rintro (⟨hMember, -⟩ | rfl)
      · exact hMember
      · exact hSelf
    · intro hMember
      by_cases hSame : u = o
      · exact .inr hSame
      · exact .inl ⟨hMember, hSame⟩
  exact ⟨m₁, nested, m₂, hUnplace, hWalk, hDrop,
    ((deleteOps_eq_ok hInner).trans (deleteOp_eq_ok hLast)).congr hAll⟩

end Module

end FortranIR
