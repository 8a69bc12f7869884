import FortranIR.Proofs.Reading.Progress
import FortranIR.Proofs.Scope

/-
  This file goes through the grammar of the text form, and shows
  for each of its parts how a reader gets past it.

  Fuel suffices if there is at least as much of it as lexemes
  ahead. A part that is nested in another one gets less fuel, but
  then some token has been taken before it. Only an attribute can
  be a type without a token in between, so it needs one more.

  Main declarations:
    * `OpKind.folds`
    * `Parse.opText_does`
-/

namespace FortranIR

variable {h : OpHead} {s : Setting} {kind : OpKind}

----
-- Spans of items
----

/- The spans at which the names of an operation stand. -/
def OpHead.spans (h : OpHead) : List Span :=
  h.operands.map TypedName.span ++ h.successors.map Name.span

/- The spans of a header of a block and of its arguments. -/
def BlockHead.spans (h : BlockHead) : List Span := h.span :: h.args.map TypedName.span

mutual

/- The integers and the kinds in a type are not zero. -/
def Ty.Sized : Ty → Prop
  | .integer width => width ≠ 0
  | .real kind => kind ≠ 0
  | .complex kind => kind ≠ 0
  | .logical kind => kind ≠ 0
  | .character kind => kind ≠ 0
  | .ref t => t.Sized
  | .ptr t => t.Sized
  | .heap t => t.Sized
  | .box t => t.Sized
  | .typeDesc t => t.Sized
  | .sequence _ t => t.Sized
  | .function params results => AllSized params ∧ AllSized results
  | .index => True
  | .record _ => True
  | .void => True

def Ty.AllSized : List Ty → Prop
  | [] => True
  | t :: ts => t.Sized ∧ AllSized ts

end

theorem Ty.allSized_iff : AllSized ts ↔ ∀ t ∈ ts, t.Sized := by
  induction ts with
  | nil => simp [AllSized]
  | cons t ts ih => simp [AllSized, ih]

/- A function has a name and a type, and no mark. -/
def OpHead.Unmarked (h : OpHead) : Prop := h.kind = .func → ∃ name t, t.Sized ∧
    h.attrs = .ofList [("sym_name", .str name), ("type", .type t)]

/- The operations that fold, and the one that others fold through. -/
def OpKind.folds : OpKind → Bool
  | .addF | .subF | .mulF | .divF | .addI | .subI | .mulI | .cmpF | .cmpI | .convert | .boxAddr
  | .embox => true
  | _ => false

/- What folds has no regions, and results with sizes. -/
def OpHead.Flat (h : OpHead) (regionCount : Nat) : Prop :=
  h.kind.folds = true → regionCount = 0 ∧ ∀ t ∈ h.resultTypes, t.Sized

/- The names in a text can be shown, and what folds in it is flat. -/
def Text.Fine (s : Setting) {l : Layer} : Text l → Prop
  | .nil => True
  | .op h inner rest =>
    (∀ span ∈ h.2.spans, s.Shows span) ∧ (∀ n ∈ h.2.results, s.Shows n.span) ∧
      h.2.Flat inner.regionRoots.length ∧ Fine s inner ∧ Fine s rest
  | .region _ inner rest => Fine s inner ∧ Fine s rest
  | .block h inner rest => (∀ span ∈ h.spans, s.Shows span) ∧ Fine s inner ∧ Fine s rest

def RegionText.Fine (s : Setting) (bs : RegionText) : Prop := (Text.ofBlocks bs).Fine s

theorem RegionText.fine_nil (s : Setting) : RegionText.Fine s [] := by
  simp [RegionText.Fine, Text.ofBlocks, Text.Fine]

/-
  The names behind the name of an operation can be shown, and a
  function has no mark.
-/
structure OpText.Fine (s : Setting) (text : OpText) : Prop where
  unmarked : text.head.Unmarked
  flat : text.head.Flat text.regions.length
  operands : ∀ n ∈ text.head.operands, s.Shows n.span
  successors : ∀ n ∈ text.head.successors, s.Shows n.span
  regions : ∀ bs ∈ text.regions, RegionText.Fine s bs

/- An operation without successors and regions. -/
theorem OpText.Fine.plain (hKind : h.kind ≠ .func) (hSized : ∀ t ∈ h.resultTypes, t.Sized)
    (hOperands : ∀ n ∈ h.operands, s.Shows n.span) (hSuccessors : h.successors = []) :
    OpText.Fine s { head := h } :=
  ⟨fun hFunc => absurd hFunc hKind, fun _ => ⟨rfl, hSized⟩, hOperands, by simp [hSuccessors], nofun⟩

theorem mem_zipWith_left {α β γ : Type} {f : α → β → γ} {as : List α} {bs : List β} {c : γ}
    (hMember : c ∈ as.zipWith f bs) : ∃ a ∈ as, ∃ b, c = f a b := by
  induction as generalizing bs with
  | nil => cases hMember
  | cons a as ih =>
    cases bs with
    | nil => cases hMember
    | cons b bs =>
      rcases List.mem_cons.mp hMember with hFirst | hLater
      · exact ⟨a, .head _, b, hFirst⟩
      · rcases ih hLater with ⟨a', hIn, b', hSame⟩
        exact ⟨a', .tail _ hIn, b', hSame⟩

namespace Parse

----
-- Types
----

section Types

variable {inner : Parse Ty}

theorem typeKind_does (hMake : ∀ kind, kind ≠ 0 → (make kind).Sized) :
    Does s p m m (typeKind make) Ty.Sized := by
  apply Does.char
  apply Does.span
  intro place hPlace
  apply Does.bind (item_does "kind" rfl)
  intro n _
  apply Does.char
  refine .ite (fun hRange => .pure (hMake _ fun hZero => ?_) (by omega)) fun _ => fail_does _ hPlace
  have hLow := Int64.lt_iff_toInt_lt.mp hRange.1
  have hHigh := Int64.lt_iff_toInt_lt.mp hRange.2
  have hNumber : n.toInt.toNat % 256 = 0 := congrArg UInt8.toNat hZero
  simp at hLow hHigh
  omega

/- Every extent takes two tokens. -/
theorem extents_does (shape : List Extent) (hFuel : m ≤ fuel) :
    Does s p m m (extents fuel shape) Anyhow := by
  induction fuel generalizing m p shape with
  | zero =>
    intro r _ _ hLess
    omega
  | succ fuel ih =>
    have hMore : ∀ (shape : List Extent) (q : Token → Prop), (∀ t, q t → t.kind ≠ .finish) →
          Does s q m m (do next; expectWord "x"; extents fuel shape) Anyhow := by
      intro shape q hToken
      apply Does.bind (next_does hToken)
      intro _ _
      apply Does.word
      exact (ih (p := Anywhere) shape (by omega)).weaken .refl (by omega)
    apply Does.token
    intro t _ hFine
    split
    · rename_i n hKind
      apply Does.ite
      · exact fun _ => hMore _ _ (by rintro _ rfl; simp [hKind])
      · exact fun _ => fail_does _ hFine.shows
    · rename_i c hKind
      apply Does.ite
      · exact fun _ => hMore _ _ (by rintro _ rfl; simp [hKind])
      · intro _
        apply Does.ite
        · exact fun _ => hMore _ _ (by rintro _ rfl; simp [hKind])
        · exact fun _ => .pure trivial .refl
    · exact .pure trivial .refl

theorem lenParams_does : Does s p m m lenParams Anyhow := by
  apply Does.isAt
  · apply Does.bind next_char
    intro _ _
    apply Does.span
    intro place hPlace
    apply Does.bind (item_does "length parameter count" rfl)
    intro n _
    have hRest : Does s Anywhere (m - 1 - 1) m (do expectChar ')'; return n.toInt.toNat) Anyhow :=
      .char (.pure trivial (by omega))
    exact .ite (fun _ => fail_bind_does _ hPlace) fun _ => hRest
  · exact .pure trivial .refl

theorem defineRecord_does (name : String) (body : RecordBody) (hPlace : s.Shows place) :
    Does s p m m (defineRecord place name body) Anyhow := by
  intro r hSound hToken hLess
  unfold defineRecord
  rw [bind_of_get rfl]
  cases r.records.define name body with
  | ok records =>
    exact ⟨{ hSound with }, ⟨List.suffix_refl _, fun _ => rfl, .refl⟩, hLess, trivial⟩
  | error e => exact fail_does _ hPlace r hSound hToken hLess

theorem signatureWith_does (hInner : ∀ k ≤ m - 1, Does s Anywhere k (k - 1) inner Ty.Sized)
    (hFuel : m - 1 ≤ fuel) :
    Does s p m (m - 1) (signatureWith fuel inner) fun x => (Ty.function x.1 x.2).Sized := by
  have hType : ∀ k ≤ m - 1, Does s Anywhere k k inner Ty.Sized := fun k hLess =>
      (hInner k hLess).weaken .refl (Nat.sub_le _ _)
  apply Does.bind (list_does hType hFuel)
  intro params hParams
  apply Does.bind (expect_does (k := .arrow) nofun)
  intro _ _
  apply Does.bind (list_does (fun k hLess => hType k (by omega)) (by omega))
  intro results hResults
  exact .pure ⟨Ty.allSized_iff.mpr hParams, Ty.allSized_iff.mpr hResults⟩ (by omega)

section

variable (hInner : ∀ k ≤ m, Does s Anywhere k (k - 1) inner Ty.Sized)
include hInner

theorem wrapped_does (hWrap : ∀ t, t.Sized → (wrap t).Sized) :
    Does s p m m (wrapped inner wrap) Ty.Sized := by
  apply Does.char
  apply Does.bind (hInner _ (Nat.sub_le _ _))
  intro t hSized
  exact .char (.pure (hWrap t hSized) (by omega))

theorem sequence_does (hFuel : m ≤ fuel) : Does s p m m (sequence fuel inner) Ty.Sized := by
  apply Does.char
  apply Does.bind (extents_does [] (by omega))
  intro shape _
  apply Does.bind (hInner _ (Nat.sub_le _ _))
  intro element hSized
  exact .char (.pure hSized (by omega))

theorem field_does : Does s p m m (field inner) Anyhow := by
  apply Does.bind (item_does "field name" rfl)
  intro name _
  apply Does.char
  apply Does.bind (hInner _ (by omega))
  intro t _
  exact .pure trivial (by omega)

theorem fields?_does (hFuel : m ≤ fuel) : Does s p m m (fields? fuel inner) Anyhow := by
  apply Does.isAt
  · have hField : ∀ k ≤ m - 1, Does s Anywhere k k (field inner) Anyhow :=
      fun k hLess => field_does fun j hSmall => hInner j (by omega)
    apply Does.bind (list_does hField (by omega))
    intro fields _
    exact .pure trivial (by omega)
  · exact .pure trivial .refl

theorem record_does (hFuel : m ≤ fuel) : Does s p m m (record fuel inner) Ty.Sized := by
  apply Does.span
  intro place hPlace
  apply Does.char
  apply Does.bind (item_does "record name" rfl)
  intro name _
  apply Does.bind lenParams_does
  intro count _
  apply Does.bind (fields?_does (fun k hLess => hInner k (by omega)) (by omega))
  intro fields _
  apply Does.char
  have hEnd : Does s Anywhere (m - 1 - 1 - 1) m (pure (Ty.record name)) Ty.Sized :=
    .pure trivial (by omega)
  split
  · exact hEnd
  · apply Does.last
    intro r hLast
    exact .bind (defineRecord_does name _ (hPlace.extendTo hLast)) fun _ _ => hEnd

theorem namedType_does (name : String) (hFuel : m ≤ fuel) (hPlace : s.Shows place) :
    Does s p m m (namedType fuel inner place name) Ty.Sized := by
  iterate 5 refine .ite (fun _ => wrapped_does hInner fun _ hSized => hSized) fun _ => ?_
  iterate 4 refine .ite (fun _ => typeKind_does fun _ hKind => hKind) fun _ => ?_
  refine .ite (fun _ => sequence_does hInner hFuel) fun _ => ?_
  exact .ite (fun _ => record_does hInner hFuel) fun _ => fail_does _ hPlace

end

theorem sized_of_ofWord (hWord : Ty.ofWord? word = some t) : t.Sized := by
  unfold Ty.ofWord? at hWord
  iterate 6
    split at hWord
    · cases hWord
      simp [Ty.Sized]
  split at hWord
  · rcases Option.map_eq_some_iff.mp hWord with ⟨width, hWidth, rfl⟩
    unfold Ty.widthOf? at hWidth
    simp only [Bool.or_eq_true] at hWidth
    split at hWidth
    · cases hWidth
    · split at hWidth
      · cases hWidth
      · cases hWidth
        intro hZero
        have hNumber := congrArg UInt32.toNat hZero
        simp at hNumber
        omega
  · cases hWord

theorem type_does (hFuel : m ≤ fuel) : Does s p m (m - 1) (type fuel) Ty.Sized := by
  induction fuel generalizing m p with
  | zero =>
    intro r _ _ hLess
    omega
  | succ fuel ih =>
    have hInner : ∀ k ≤ m - 1, Does s Anywhere k (k - 1) (type fuel) Ty.Sized :=
      fun k hLess => ih (by omega)
    apply Does.token
    intro t _ hFine
    split
    · rename_i word hKind
      split
      · rename_i hWord
        apply Does.bind (next_does (by rintro _ rfl; simp [hKind]))
        exact fun _ _ => .pure (sized_of_ofWord hWord) .refl
      · exact unexpected_does "type"
    · rename_i name hKind
      apply Does.bind (next_does (by rintro _ rfl; simp [hKind]))
      exact fun _ _ => namedType_does hInner name (by omega) hFine.shows
    · apply Does.ite
      · intro _
        apply Does.bind (signatureWith_does hInner (by omega))
        exact fun _ hSized => .pure hSized .refl
      · exact fun _ => unexpected_does "type"
    · exact unexpected_does "type"

/- A type, where it does not matter that it takes a token. -/
theorem type_keeps (hFuel : m ≤ fuel) : Does s p m m (type fuel) Ty.Sized :=
  (type_does (p := Anywhere) hFuel).weaken .refl (Nat.sub_le _ _)

end Types

----
-- Attributes
----

theorem plainAttr_does (a : Attr) (hMore : ∀ t, p t → t.kind ≠ .finish) :
    Does s p m m (plainAttr a) Anyhow := .bind (next_does hMore) fun _ _ => .pure trivial (by omega)

theorem wordAttr_does (hToken : ∀ t, p t → t.kind = .ident word)
    (hFuel : m ≤ fuel) : Does s p m m (wordAttr fuel word) Anyhow := by
  have hMore : ∀ t, p t → t.kind ≠ .finish := fun t hAt => by simp [hToken t hAt]
  iterate 3 refine .ite (fun _ => plainAttr_does _ hMore) fun _ => ?_
  apply Does.ite
  · intro _
    apply Does.bind (next_does hMore)
    intro _ _
    have hInt : ∀ k ≤ m - 1 - 1, Does s Anywhere k k (item TokenKind.int? "integer") Anyhow :=
      fun k _ => (item_does (p := Anywhere) "integer" rfl).weaken .refl (Nat.sub_le _ _)
    apply Does.bind (list_does hInt (by omega))
    exact fun _ _ => .pure trivial (by omega)
  · intro _
    exact .bind (type_keeps hFuel) fun _ _ => .pure trivial .refl

theorem attr_does (hFuel : m + 1 ≤ fuel) : Does s p m m (attr fuel) Anyhow := by
  induction fuel generalizing m p with
  | zero => omega
  | succ fuel ih =>
    have hType : ∀ q : Token → Prop, Does s q m m (do return Attr.type (← type fuel)) Anyhow :=
      fun q => .bind (type_keeps (by omega)) fun _ _ => .pure trivial .refl
    have hArray : ∀ q : Token → Prop, Does s q m m
          (do return Attr.array (← list fuel '[' ']' (attr fuel))) Anyhow := by
      intro q
      have hAttr : ∀ k ≤ m - 1, Does s Anywhere k k (attr fuel) Anyhow :=
        fun k hLess => .of_pos fun hSome => ih (by omega)
      apply Does.bind (list_does hAttr (by omega))
      exact fun _ _ => .pure trivial (by omega)
    apply Does.token
    intro t _ hFine
    split <;> rename_i hKind
    · exact wordAttr_does (by rintro _ rfl; exact hKind) (by omega)
    · exact plainAttr_does _ (by rintro _ rfl; simp [hKind])
    · exact plainAttr_does _ (by rintro _ rfl; simp [hKind])
    · exact plainAttr_does _ (by rintro _ rfl; simp [hKind])
    · exact plainAttr_does _ (by rintro _ rfl; simp [hKind])
    · split
      · exact plainAttr_does _ (by rintro _ rfl; simp [hKind])
      · exact fail_does _ hFine.shows
    · exact hType _
    · refine .ite (fun _ => hArray _) fun _ => ?_
      exact .ite (fun _ => hType _) fun _ => unexpected_does "attribute"
    · exact unexpected_does "attribute"

theorem namedAttr_does (hFuel : m ≤ fuel) : Does s p m m (namedAttr fuel) fun a => s.Shows a.1 := by
  apply Does.span
  intro place hPlace
  apply Does.bind (item_does "attribute name" rfl)
  intro name _
  apply Does.isAt
  · apply Does.bind next_char
    intro _ _
    apply Does.of_pos
    intro hSome
    apply Does.bind (attr_does (by omega))
    exact fun _ _ => .pure hPlace (by omega)
  · exact .pure hPlace (by omega)

theorem collectAttrs_does (attrs : AttrMap)
    (hEntries : ∀ e ∈ entries, s.Shows e.1) : Does s p m m (collectAttrs attrs entries) Anyhow := by
  induction entries generalizing attrs p with
  | nil => exact .pure trivial .refl
  | cons e entries ih =>
    rcases e with ⟨place, name, a⟩
    rw [List.forall_mem_cons] at hEntries
    have hRest : ∀ q, Does s q m m (collectAttrs (attrs.insert name a) entries) Anyhow :=
      fun q => ih _ hEntries.2
    apply Does.ite
    · exact fun _ => .bind (log_does .warning _ hEntries.1) fun _ _ => hRest _
    · exact fun _ => hRest _

theorem attrMap_does (hFuel : m ≤ fuel) : Does s p m m (attrMap fuel) Anyhow := by
  have hEntry : ∀ k ≤ m - 1, Does s Anywhere k k (namedAttr fuel) fun a => s.Shows a.1 :=
    fun k hLess => namedAttr_does (by omega)
  apply Does.bind (list_does hEntry (by omega))
  intro entries hEntries
  exact (collectAttrs_does (p := Anywhere) {} hEntries).weaken .refl (by omega)

----
-- Names and operands
----

theorem name_does : Does s p m (m - 1) name fun n => s.Shows n.span := by
  apply Does.span
  intro place hPlace
  apply Does.bind (item_does "value" rfl)
  exact fun _ _ => .pure hPlace .refl

theorem name_keeps : ∀ k ≤ m, Does s Anywhere k k name fun n => s.Shows n.span :=
  fun _ _ => (name_does (p := Anywhere)).weaken .refl (Nat.sub_le _ _)

theorem typedNames_does (types : List Ty) (hPlace : s.Shows place)
    (hNames : ∀ n ∈ names, s.Shows n.span) :
    Does s p m m (typedNames place names types) (∀ x ∈ ·, s.Shows x.span) := by
  have hTyped : ∀ x ∈ names.zipWith Name.typed types, s.Shows x.span := by
    intro x hMember
    rcases mem_zipWith_left hMember with ⟨n, hIn, t, rfl⟩
    exact hNames n hIn
  apply Does.ite
  · intro _
    apply Does.last
    exact fun r hLast => fail_bind_does _ (hPlace.extendTo hLast)
  · exact fun _ => .pure hTyped .refl

theorem operandGroup_does (hFuel : m ≤ fuel) :
    Does s p m m (operandGroup fuel) (∀ x ∈ ·, s.Shows x.span) := by
  apply Does.span
  intro place hPlace
  apply Does.char
  apply Does.isAt
  · apply Does.bind next_char
    exact fun _ _ => .pure nofun (by omega)
  · apply Does.bind (separated_does name_keeps (by omega))
    intro names hNames
    apply Does.char
    apply Does.bind (separated_does (fun k hLess => type_keeps (by omega)) (by omega))
    intro types _
    apply Does.char
    exact (typedNames_does (p := Anywhere) types hPlace hNames).weaken .refl (by omega)

/- Names and their places, with further names. -/
def ShowsBoth (s : Setting) (x : Name × List TypedName) : Prop :=
  s.Shows x.1.span ∧ ∀ n ∈ x.2, s.Shows n.span

theorem successor_does (hFuel : m ≤ fuel) : Does s p m m (successor fuel) (ShowsBoth s) := by
  apply Does.span
  intro place hPlace
  apply Does.bind (item_does "successor block" rfl)
  intro text _
  apply Does.isAt
  · apply Does.bind (operandGroup_does (by omega))
    exact fun args hArgs => .pure ⟨hPlace, hArgs⟩ (by omega)
  · apply Does.bind (.pure rfl .refl)
    rintro args (rfl : [] = args)
    exact .pure ⟨hPlace, nofun⟩ (by omega)

----
-- Operations without regions
----

theorem generic_does (hKind : kind ≠ .func) (hFuel : m ≤ fuel) :
    Does s p m m (generic fuel kind) (OpText.Fine s) := by
  apply Does.span
  intro place hPlace
  apply Does.bind (list_does name_keeps (by omega))
  intro names hNames
  refine Does.isAt (.bind (attrMap_does (by omega)) ?_) (.bind (.pure (show Anyhow _ from trivial) .refl) ?_)
  all_goals
    intro attrs (_ : Anyhow attrs)
    apply Does.char
    apply Does.bind (signatureWith_does (fun k hLess => type_does (by omega)) (by omega))
    intro signature hSized
    apply Does.bind (typedNames_does _ hPlace hNames)
    exact fun operands hOperands =>
      .pure (.plain hKind (Ty.allSized_iff.mp hSized.2) hOperands rfl) (by omega)

theorem constant_does (hFuel : m + 1 ≤ fuel) : Does s p m m (constant fuel) (OpText.Fine s) := by
  apply Does.bind (attr_does hFuel)
  intro value _
  apply Does.char
  apply Does.bind (type_does (by omega))
  exact fun t hSized =>
    .pure (.plain nofun (List.forall_mem_singleton.mpr hSized) nofun rfl) (by omega)

theorem comparison_does (hKind : kind ≠ .func) (hFuel : m ≤ fuel) :
    Does s p m m (comparison fuel kind) (OpText.Fine s) := by
  apply Does.span
  intro place hPlace
  apply Does.bind (item_does "predicate" rfl)
  intro text _
  split
  · exact fail_does _ hPlace
  · apply Does.char
    apply Does.bind name_does
    intro lhs hLeft
    apply Does.char
    apply Does.bind name_does
    intro rhs hRight
    apply Does.char
    apply Does.bind (type_does (by omega))
    intro t _
    refine .pure (.plain hKind ?_ ?_ rfl) (by omega)
    · simp [Ty.i1, Ty.Sized]
    · simp [Name.typed, hLeft, hRight]

theorem branch_does (hFuel : m ≤ fuel) : Does s p m m (branch fuel) (OpText.Fine s) := by
  apply Does.bind (successor_does hFuel)
  intro target hTarget
  refine .pure ⟨nofun, nofun, hTarget.2, ?_, nofun⟩ .refl
  simp [hTarget.1]

theorem condBranch_does (hFuel : m ≤ fuel) : Does s p m m (condBranch fuel) (OpText.Fine s) := by
  apply Does.bind name_does
  intro cond hCond
  apply Does.char
  apply Does.bind (successor_does (by omega))
  intro yes hYes
  apply Does.char
  apply Does.bind (successor_does (by omega))
  intro no hNo
  refine .pure ⟨nofun, nofun, ?_, ?_, nofun⟩ (by omega)
  · simp only [List.cons_append, List.forall_mem_cons, List.forall_mem_append]
    exact ⟨hCond, hYes.2, hNo.2⟩
  · simp [hYes.1, hNo.1]

theorem compareNames_does (t : Ty) (hFuel : m ≤ fuel) :
    Does s p m m (compareNames t fuel) (∀ x ∈ ·, s.Shows x.span) := by
  induction fuel generalizing m p with
  | zero =>
    intro r _ _ hLess
    omega
  | succ fuel ih =>
    apply Does.kind
    intro token _
    split
    · apply Does.bind name_does
      intro n hName
      apply Does.char
      apply Does.bind (ih (by omega))
      intro names hNames
      exact .pure (List.forall_mem_cons.mpr ⟨hName, hNames⟩) (by omega)
    · exact .pure nofun .refl

/- The names in a case can be shown. -/
structure CaseText.Fine (s : Setting) (c : CaseText) : Prop where
  compare : ∀ n ∈ c.compare, s.Shows n.span
  target : ShowsBoth s (c.dest, c.args)

theorem caseText_does (kind : OpKind) (t : Ty) (hFuel : m + 1 ≤ fuel) :
    Does s p m m (caseText fuel kind t) (CaseText.Fine s) := by
  apply Does.bind (attr_does hFuel)
  intro tag _
  apply Does.char
  have hNone : Does s Anywhere (m - 1) (m - 1) (pure ([] : List TypedName))
      fun names => ∀ n ∈ names, s.Shows n.span := .pure (by simp) .refl
  refine Does.ite (fun _ => .bind (compareNames_does t (by omega)) ?_) fun _ => .bind hNone ?_
  all_goals
    intro compare hCompare
    apply Does.bind (successor_does (by omega))
    exact fun target hTarget => .pure ⟨hCompare, hTarget⟩ (by omega)

theorem multiway_does (hKind : kind ≠ .func) (hFuel : m ≤ fuel) :
    Does s p m m (multiway fuel kind) (OpText.Fine s) := by
  apply Does.bind name_does
  intro selector hSelector
  apply Does.char
  apply Does.bind (type_does (by omega))
  intro t _
  have hCase : ∀ k ≤ m - 1 - 1 - 1 - 1, Does s Anywhere k k (caseText fuel kind t)
          (CaseText.Fine s) := fun k hLess => .of_pos fun hSome => caseText_does kind t (by omega)
  apply Does.bind (list_does hCase (by omega))
  intro cases hCases
  refine .pure ⟨fun hFunc => absurd hFunc hKind, fun _ => ⟨rfl, nofun⟩, ?_, ?_, nofun⟩ (by omega)
  · simp only [List.cons_append, List.forall_mem_cons, List.forall_mem_append, List.mem_flatMap]
    refine ⟨hSelector, ?_, ?_⟩
    · rintro n ⟨c, hMember, hIn⟩
      exact (hCases c hMember).compare n hIn
    · rintro n ⟨c, hMember, hIn⟩
      exact (hCases c hMember).target.2 n hIn
  · intro n hMember
    rcases List.mem_map.mp hMember with ⟨c, hIn, rfl⟩
    exact (hCases c hIn).target.1

----
-- Operations with regions
----

section Regions

variable {region : Parse RegionText}

theorem loopCondition_does (kind : OpKind) :
    Does s p m m (loopCondition kind) (∀ x ∈ ·, s.Shows x.span) := by
  apply Does.ite
  · intro _
    apply Does.word
    apply Does.bind name_does
    intro n hName
    exact .pure (by simpa [Name.typed] using hName) (by omega)
  · exact fun _ => .pure nofun .refl

theorem loopFlag_does (kind : OpKind) : Does s p m m (loopFlag kind) Anyhow := by
  apply Does.ite
  · intro _
    apply Does.isAt
    · apply Does.bind next_word
      exact fun _ _ => .pure trivial (by omega)
    · exact .pure trivial .refl
  · exact fun _ => .pure trivial .refl

theorem linkage?_does : Does s p m m linkage? Anyhow := by
  apply Does.token
  intro t _ hFine
  split
  · rename_i word hKind
    split
    · apply Does.bind (next_does (by rintro _ rfl; simp [hKind]))
      exact fun _ _ => .pure trivial (by omega)
    · exact fail_does _ hFine.shows
  · exact .pure trivial .refl

theorem initial?_does (hFuel : m ≤ fuel) : Does s p m m (initial? fuel) Anyhow := by
  apply Does.isAt
  · apply Does.bind next_char
    intro _ _
    apply Does.of_pos
    intro hSome
    apply Does.bind (attr_does (by omega))
    intro value _
    exact .char (.pure trivial (by omega))
  · exact .pure trivial .refl

theorem constantFlag?_does : Does s p m m constantFlag? Anyhow := by
  apply Does.isAt
  · apply Does.bind next_word
    exact fun _ _ => .pure trivial (by omega)
  · exact .pure trivial .refl

variable (hRegion : ∀ k ≤ m, Does s Anywhere k k region (RegionText.Fine s))
include hRegion

theorem loop_does (hKind : kind ≠ .func) (hStays : kind.folds = false) (hFuel : m ≤ fuel) :
    Does s p m m (loop fuel region kind) (OpText.Fine s) := by
  apply Does.bind name_does
  intro lower hLower
  apply Does.word
  apply Does.bind name_does
  intro upper hUpper
  apply Does.word
  apply Does.bind name_does
  intro step hStep
  apply Does.bind (loopCondition_does kind)
  intro cond hCond
  apply Does.bind (loopFlag_does kind)
  intro attrs _
  have hRest : ∀ inits : List TypedName, (∀ x ∈ inits, s.Shows x.span) →
        Does s Anywhere (m - 1 - 1 - 1 - 1 - 1) m (do
            let body ← region
            let bounds := [lower, upper, step].map fun n => n.typed .index
            return ({
              head := {
                kind
                operands := bounds ++ cond ++ inits
                attrs
                resultTypes :=
                  cond.map TypedName.type ++ inits.map TypedName.type }
              regions := [body] } : OpText)) (OpText.Fine s) := by
    intro inits hInits
    apply Does.bind (hRegion _ (by omega))
    intro body hBody
    refine .pure ⟨fun hFunc => absurd hFunc hKind, ?_, ?_, nofun, by simpa using hBody⟩ (by omega)
    · simp [OpHead.Flat, hStays]
    · simp only [List.forall_mem_append]
      refine ⟨⟨?_, hCond⟩, hInits⟩
      simp [Name.typed, hLower, hUpper, hStep]
  apply Does.isAt
  · apply Does.bind next_word
    intro _ _
    apply Does.bind (operandGroup_does (by omega))
    exact fun inits hInits => (hRest inits hInits).weaken (Nat.sub_le _ _) .refl
  · exact .bind (.pure nofun .refl) hRest

theorem conditional_does (hFuel : m ≤ fuel) :
    Does s p m m (conditional fuel region) (OpText.Fine s) := by
  apply Does.bind name_does
  intro cond hCond
  have hEnd : ∀ (resultTypes : List Ty) (yes no : RegionText), RegionText.Fine s yes →
        RegionText.Fine s no → Does s Anywhere m m (pure ({
            head := {
              kind := .ifOp
              operands := [cond.typed .i1]
              resultTypes }
            regions := [yes, no] } : OpText)) (OpText.Fine s) := by
    intro resultTypes yes no hYes hNo
    refine .pure ⟨nofun, nofun, ?_, nofun, ?_⟩ .refl
    · simpa [Name.typed] using hCond
    · simp [hYes, hNo]
  have hRest : ∀ resultTypes : List Ty, Does s Anywhere (m - 1) m (do
            let yes ← region
            let no ←
              if ← isAtWord "else" then
                next
                region
              else
                pure []
            return ({
              head := {
                kind := .ifOp
                operands := [cond.typed .i1]
                resultTypes }
              regions := [yes, no] } : OpText)) (OpText.Fine s) := by
    intro resultTypes
    apply Does.bind (hRegion _ (Nat.sub_le _ _))
    intro yes hYes
    apply Does.isAt
    · apply Does.bind next_word
      intro _ _
      apply Does.bind (hRegion _ (by omega))
      exact fun no hNo => (hEnd _ yes no hYes hNo).weaken (by omega) .refl
    · apply Does.bind (.pure rfl .refl)
      rintro no (rfl : [] = no)
      exact (hEnd _ yes [] hYes (RegionText.fine_nil s)).weaken (by omega) .refl
  apply Does.isAt
  · apply Does.bind (next_does fun _ hKind => by simp [hKind])
    intro _ _
    apply Does.bind (list_does (fun k hLess => type_keeps (by omega)) (by omega))
    exact fun types _ => (hRest types).weaken (by omega) .refl
  · exact .bind (.pure trivial .refl) fun types (_ : Anyhow types) => hRest types

theorem optional_does : Does s p m m (optional region) (RegionText.Fine s) := by
  apply Does.isAt
  · exact (hRegion m .refl).weaken .refl .refl
  · exact .pure (RegionText.fine_nil s) .refl

/- An operation that ends with a region it may leave out. -/
theorem optional_bind_does (hLess : m ≤ n) (hUnmarked : h.Unmarked)
    (hStays : h.kind.folds = false) (hOperands : h.operands = []) (hSuccessors : h.successors = []) :
    Does s p m n (do let body ← optional region return { head := h, regions := [body] })
      (OpText.Fine s) := by
  apply Does.bind (optional_does hRegion)
  intro body hBody
  refine .pure ⟨hUnmarked, ?_, ?_, ?_, by simpa using hBody⟩ hLess
  · simp [OpHead.Flat, hStays]
  · simp [hOperands]
  · simp [hSuccessors]

theorem function_does (hFuel : m ≤ fuel) : Does s p m m (function fuel region) (OpText.Fine s) := by
  apply Does.bind (item_does "function name" rfl)
  intro symbol _
  apply Does.char
  apply Does.span
  intro place hPlace
  apply Does.bind (type_does (by omega))
  intro t hSized
  apply Does.ite
  · intro _
    apply Does.last
    exact fun r _ => fail_bind_does _ hPlace
  · exact fun _ => optional_bind_does (fun k hLess => hRegion k (by omega)) (by omega)
      (fun _ => ⟨symbol, t, hSized, rfl⟩) rfl rfl rfl

theorem global_does (hFuel : m ≤ fuel) : Does s p m m (global fuel region) (OpText.Fine s) := by
  apply Does.bind linkage?_does
  intro linkage _
  apply Does.bind (item_does "global name" rfl)
  intro symbol _
  apply Does.bind (initial?_does (by omega))
  intro init _
  apply Does.bind constantFlag?_does
  intro flag _
  apply Does.char
  apply Does.bind (type_does (by omega))
  intro t _
  exact optional_bind_does (fun k hLess => hRegion k (by omega)) (by omega) nofun rfl rfl rfl

theorem dispatchTable_does : Does s p m m (dispatchTable region) (OpText.Fine s) := by
  apply Does.bind (item_does "dispatch table name" rfl)
  intro symbol _
  exact optional_bind_does (fun k hLess => hRegion k (by omega)) (by omega) nofun rfl rfl rfl

theorem opText_does (kind : OpKind) (hFuel : m + 1 ≤ fuel) :
    Does s p m m (opText fuel region kind) (OpText.Fine s) := by
  have hLess : m ≤ fuel := by omega
  unfold opText
  split
  · exact function_does hRegion hLess
  · exact global_does hRegion hLess
  · exact dispatchTable_does hRegion
  · exact loop_does hRegion nofun rfl hLess
  · exact loop_does hRegion nofun rfl hLess
  · exact conditional_does hRegion hLess
  · exact comparison_does nofun hLess
  · exact comparison_does nofun hLess
  · exact constant_does hFuel
  · exact branch_does hLess
  · exact condBranch_does hLess
  · exact multiway_does nofun hLess
  · exact multiway_does nofun hLess
  · exact multiway_does nofun hLess
  · exact multiway_does nofun hLess
  · exact generic_does ‹_› hLess

end Regions

end Parse

end FortranIR
