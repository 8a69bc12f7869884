import FortranIR.Assembly
import FortranIR.Proofs.Code

/-
  This file states when the names in items are well scoped, and
  what code well-scoped items stand for.

  In an operation of the module level a value has one name, and
  can be used anywhere with the type of its definition. In a
  region a block has one name, and branches of the region itself
  can use it, but not those of regions nested in it.

  Main declarations:
    * `Text`
    * `Assemble.forest`
-/

namespace FortranIR

----
-- Items as forests
----

/- Operations, regions or blocks as they stand in a text. -/
abbrev Text (l : Layer) := Forest (Span × OpHead) BlockHead Unit l

namespace Text

mutual

/- The operations among some items. -/
def ofItems : List Item → Text .ops
  | [] => .nil
  | .error _ :: rest => ofItems rest
  | .operation span h rs :: rest => .op (span, h) (ofRegions rs) (ofItems rest)

/- The regions of an operation. -/
def ofRegions : List (List (BlockText Item)) → Text .regions
  | [] => .nil
  | bs :: rest => .region () (ofBlocks bs) (ofRegions rest)

/- The blocks of a region. -/
def ofBlocks : List (BlockText Item) → Text .blocks
  | [] => .nil
  | ⟨h, is⟩ :: rest => .block h (ofItems is) (ofBlocks rest)

end

end Text

/- An operation with what is nested in it, if it is no error. -/
def Item.text (i : Item) : Text .ops := Text.ofItems [i]

----
-- Scopes
----

/- A name with its type. -/
def TypedName.entry (n : TypedName) : String × Ty := (n.text, n.type)

/- The names of results with their types. -/
def OpHead.entries (h : OpHead) : List (String × Ty) := (h.results.map Name.text).zip h.resultTypes

namespace Text

/- The names that are defined, with the types of the values. -/
def defs (t : Text l) : List (String × Ty) := t.gather (fun _ => []) (fun h => h.2.entries)
    (fun b => b.args.map TypedName.entry)

/- The names that are used, with the types that are stated. -/
def uses (t : Text l) : List (String × Ty) := t.gather (fun h => h.2.operands.map TypedName.entry)
    (fun _ => []) (fun _ => [])

/- The names of the outermost blocks. -/
def labels (t : Text .blocks) : List String := t.blockRoots.map BlockHead.name

/-
  The blocks of every region have distinct names, and branches
  name blocks of the region that they are in. The outermost
  operations are in a region whose names `known` tells.
-/
def Labelled {l : Layer} (known : String → Prop) : Text l → Prop
  | .nil => True
  | .op h inner rest =>
    (∀ s ∈ h.2.successors, known s.text) ∧ Labelled known inner ∧ Labelled known rest
  | .region _ inner rest =>
    (labels inner).Nodup ∧ Labelled (· ∈ labels inner) inner ∧ Labelled known rest
  | .block _ inner rest =>
    Labelled known inner ∧ Labelled known rest

/- The names of an operation of the module level make sense. -/
structure WellScoped (t : Text .ops) : Prop where
  once : (t.defs.map Prod.fst).Nodup
  defined : ∀ use ∈ t.uses, use ∈ t.defs
  labelled : t.Labelled fun _ => False

theorem Labelled.mono {t : Text l} (hLabelled : t.Labelled known)
    (hMore : ∀ s, known s → known' s) : t.Labelled known' := by
  induction t with
  | nil => trivial
  | op h inner rest ihInner ihRest =>
    rcases hLabelled with ⟨hHead, hInner, hRest⟩
    exact ⟨fun s hMember => hMore s.text (hHead s hMember), ihInner hInner, ihRest hRest⟩
  | region r inner rest _ ihRest =>
    rcases hLabelled with ⟨hNodup, hInner, hRest⟩
    exact ⟨hNodup, hInner, ihRest hRest⟩
  | block b inner rest ihInner ihRest =>
    rcases hLabelled with ⟨hInner, hRest⟩
    exact ⟨ihInner hInner, ihRest hRest⟩

----
-- Code of a text
----

/- The node of an operation in a region with some block names. -/
def node (labels : List String) (h : OpHead) : OpNode String where
  kind := h.kind
  results := h.entries
  unnamed := h.resultTypes.drop h.results.length
  operands := h.operands.map TypedName.entry
  attrs := h.attrs
  successors := h.successors.map fun s => labels.idxOf s.text

/- The code of a text in a region with some block names. -/
def code {l : Layer} (around : List String) : Text l → Code String l
  | .nil => .nil
  | .op h inner rest => .op (node around h.2) (code around inner) (code around rest)
  | .region _ inner rest => .region () (code (labels inner) inner) (code around rest)
  | .block b inner rest =>
    .block (b.args.map TypedName.entry) (code around inner) (code around rest)

theorem code_uses (around : List String) (t : Text l) : (t.code around).uses = t.uses := by
  induction t generalizing around with
  | nil => rfl
  | op =>
    simp_all [code, Code.uses, uses, Forest.gather, node]
  | region | block =>
    simp_all [code, Code.uses, uses, Forest.gather]

end Text

----
-- Assembly of forests
----

/- Where the outermost nodes of a text belong in a module. -/
inductive Spot : Layer → Type where
  | ops (place : Option BlockId) : Spot .ops
  | regions (ids : List RegionId) : Spot .regions
  | blocks : Spot .blocks

namespace Assemble

/- Assemble a text. -/
def forest (records : RecordTable) {l : Layer} : Text l → Spot l → Assemble Unit
  | .nil, _ => pure ()
  | .op h inner rest, .ops place => do
      let o ← head records place h.1 h.2 inner.regionRoots.length
      let op ← read (·.op o)
      forest records inner (.regions op.regions)
      let op ← read (·.op o)
      defineAll records h.2.results op.results
      forest records rest (.ops place)
  | .region _ _ _, .regions [] => pure ()
  | .region _ inner rest, .regions (r :: ids) => do
      inRegion r (forest records inner .blocks)
      forest records rest (.regions ids)
  | .block h inner rest, .blocks => do
      match ← defineBlock records h with
      | none => pure ()
      | some b => forest records inner (.ops (some b))
      forest records rest .blocks

theorem regionRoots_ofRegions (rs : List (List (BlockText Item))) :
    (Text.ofRegions rs).regionRoots.length = rs.length := by
  induction rs with
  | nil => simp [Text.ofRegions, Forest.regionRoots]
  | cons bs rest ih =>
    rw [Text.ofRegions, Forest.regionRoots, List.length_cons, ih, List.length_cons]

mutual

theorem items_eq_forest (records : RecordTable) (b : BlockId) (is : List Item) :
    items records b is = forest records (Text.ofItems is) (.ops (some b)) := by
  match is with
  | [] => rw [items, Text.ofItems, forest]
  | .error span :: rest =>
    rw [items, operation, pure_bind, items_eq_forest records b rest, Text.ofItems]
  | .operation span h rs :: rest =>
    rw [items, operation, Text.ofItems, forest, regionRoots_ofRegions]
    simp only [bind_assoc, regions_eq_forest records _ rs, items_eq_forest records b rest]

theorem regions_eq_forest (records : RecordTable) (ids : List RegionId)
    (rs : List (List (BlockText Item))) :
    regions records ids rs = forest records (Text.ofRegions rs) (.regions ids) := by
  match rs, ids with
  | [], ids => rw [regions, Text.ofRegions, forest]
  | bs :: rest, [] => rw [regions, Text.ofRegions, forest]
  | bs :: rest, r :: ids =>
    rw [regions, Text.ofRegions, forest, blocks_eq_forest records bs,
      regions_eq_forest records ids rest]

theorem blocks_eq_forest (records : RecordTable) (bs : List (BlockText Item)) : blocks records bs =
      forest records (Text.ofBlocks bs) .blocks := by
  match bs with
  | [] => rw [blocks, Text.ofBlocks, forest]
  | ⟨h, is⟩ :: rest =>
    rw [blocks, Text.ofBlocks, blocks_eq_forest records rest]
    congr 1
    funext found
    cases found with
    | none => rfl
    | some b => simp only [items_eq_forest records b is]

end

theorem operation_eq_forest (records : RecordTable) (place : Option BlockId) (i : Item) :
    operation records place i = forest records i.text (.ops place) := by
  cases i with
  | error span => rw [operation, Item.text, Text.ofItems, Text.ofItems, forest]
  | operation =>
    rw [operation, Item.text, Text.ofItems, forest, regionRoots_ofRegions]
    simp only [regions_eq_forest, Text.ofItems, forest, bind_pure_unit]

end Assemble

end FortranIR
