import FortranIR.Proofs.Construction
import FortranIR.Proofs.Verification.Checks

/-
  This file proves which types of allocations and globals in a
  verified module have a finite layout.

  A record contains the records of its fields, seen through
  sequences but not through references and descriptors. The check
  looks for cycles through the record of the type itself, so a
  cycle that only its parts are on is not found.

  Main declarations:
    * `RecordTable.Contains`
    * `Module.not_storedTypes_finite_inner`
-/

namespace FortranIR

----
-- Containment
----

/- A type is a record, behind any number of sequences. -/
inductive Ty.Holds : Ty → String → Prop where
  | record (name : String) : Holds (.record name) name
  | sequence (shape : List Extent) {element : Ty} {name : String} (hElement : Holds element name) :
      Holds (.sequence shape element) name

theorem Ty.directRecord?_eq_some_iff {t : Ty} :
    t.directRecord? = some name ↔ t.Holds name := by
  constructor
  · intro hRecord
    fun_induction directRecord? t with
    | case1 r =>
      cases hRecord
      exact .record name
    | case2 shape element ih => exact .sequence shape (ih hRecord)
    | case3 => cases hRecord
  · intro hHolds
    induction hHolds with
    | record name => rfl
    | sequence _ _ ih => exact ih

namespace RecordTable

variable {table : RecordTable} {names : List String}

/- A field of a record holds another one without indirection. -/
def Contains (table : RecordTable) (outer inner : String) : Prop := inner ∈ table.parts outer

/- The number of entries for records that are not in a list. -/
def unseen (table : RecordTable) (names : List String) : Nat :=
  table.bodies.countP fun entry => !names.contains entry.1

theorem unseen_lt (hMore : names ⊆ more)
    (hBody : table.find? s = some body) (hNew : s ∈ more) (hOld : s ∉ names) :
    table.unseen more < table.unseen names := by
  refine countP_lt ?_ (mem_of_lookup hBody) (by simp [hNew]) (by simpa using hOld)
  intro entry _ hUnseen
  simp only [List.contains_eq_mem, Bool.not_eq_true', decide_eq_false_iff_not] at hUnseen ⊢
  exact fun hIn => hUnseen (hMore hIn)

/- The part is what a field of the record is, behind any sequences. -/
theorem contains_iff : table.Contains r s ↔ ∃ body, table.find? r = some body ∧
      ∃ field ∈ body.fields, field.2.Holds s := by
  cases hBody : table.find? r with
  | none => simp [Contains, parts, hBody]
  | some body => simp [Contains, parts, hBody, Ty.directRecord?_eq_some_iff]

----
-- Searches
----

variable {name : String} {seen seen' : List String}

theorem search_succ : table.search target (fuel + 1) seen name =
      if name = target ∧ seen ≠ [] then none
      else if name ∈ seen then some seen
      else (table.parts name).foldlM (table.search target fuel) (name :: seen) := rfl

theorem exists_of_foldlM_none
    (hRun : names.foldlM f seen = none) : ∃ name ∈ names, ∃ seen', f seen' name = none := by
  induction names generalizing seen with
  | nil => cases hRun
  | cons name names ih =>
    rw [List.foldlM_cons, Option.bind_eq_bind, Option.bind_eq_none_iff] at hRun
    cases hFirst : f seen name with
    | none => exact ⟨name, .head _, seen, hFirst⟩
    | some seen' =>
      rcases ih (hRun seen' hFirst) with ⟨other, hIn, hFound⟩
      exact ⟨other, .tail name hIn, hFound⟩

/- What is found is contained. -/
theorem path_of_search (hRun : table.search target fuel seen name = none) :
    name = target ∨ Relation.TransGen table.Contains name target := by
  induction fuel generalizing seen name with
  | zero => cases hRun
  | succ fuel ih =>
    rw [search_succ] at hRun
    split at hRun
    · rename_i hTarget
      exact .inl hTarget.1
    · split at hRun
      · cases hRun
      · rcases exists_of_foldlM_none hRun with ⟨part, hPart, seen', hFound⟩
        rcases ih hFound with rfl | hPath
        · exact .inr (.single hPart)
        · exact .inr (.head hPart hPath)

/-
  From all that a search has newly seen it has gone on, and it
  did not come to what it looks for.
-/
structure Explored (table : RecordTable) (target : String) (seen seen' : List String) : Prop where
  kept : seen ⊆ seen'
  parts : ∀ a ∈ seen', a ∉ seen → ∀ b, table.Contains a b → b ∈ seen' ∧ b ≠ target

theorem Explored.refl (seen : List String) : table.Explored target seen seen :=
  ⟨List.Subset.refl _, fun _ hIn hNew => absurd hIn hNew⟩

theorem Explored.trans (hFirst : table.Explored target seen seen')
    (hSecond : table.Explored target seen' seen'') : table.Explored target seen seen'' := by
  refine ⟨List.Subset.trans hFirst.kept hSecond.kept, fun a hIn hNew b hPart => ?_⟩
  by_cases hEarly : a ∈ seen'
  · exact (hFirst.parts a hEarly hNew b hPart).imp_left (hSecond.kept ·)
  · exact hSecond.parts a hIn hEarly b hPart

/- Some searches, if each one with these marks or more explores. -/
theorem explored_of_foldlM (hStep : ∀ more more' name, seen ⊆ more →
        table.search target fuel more name = some more' →
        table.Explored target more more' ∧ name ∈ more' ∧ name ≠ target)
    (hRun : names.foldlM (table.search target fuel) seen = some seen') :
    table.Explored target seen seen' ∧ ∀ name ∈ names, name ∈ seen' ∧ name ≠ target := by
  induction names generalizing seen with
  | nil =>
    cases hRun
    exact ⟨.refl _, nofun⟩
  | cons name names ih =>
    rcases Option.bind_eq_some_iff.mp hRun with ⟨more, hFirst, hRest⟩
    rcases hStep seen more name (List.Subset.refl _) hFirst with ⟨hExplored, hMarked, hOther⟩
    rcases ih (fun _ _ _ hMore => hStep _ _ _ (List.Subset.trans hExplored.kept hMore)) hRest with
      ⟨hLater, hNames⟩
    exact ⟨hExplored.trans hLater, List.forall_mem_cons.mpr ⟨⟨hLater.kept hMarked, hOther⟩, hNames⟩⟩

/-
  No path is lost at a mark: as often as the search stops at one,
  it has gone on from there before, or is about to.
-/
theorem explored_of_search (hFuel : table.unseen seen < fuel)
    (hRun : table.search target fuel seen name = some seen') :
    table.Explored target seen seen' ∧ name ∈ seen' ∧ (seen ≠ [] → name ≠ target) := by
  induction fuel generalizing seen seen' name with
  | zero => omega
  | succ fuel ih =>
    rw [search_succ] at hRun
    split at hRun
    · cases hRun
    · rename_i hOther
      have hTarget : seen ≠ [] → name ≠ target := fun hSome hSame => hOther ⟨hSame, hSome⟩
      split at hRun
      · rename_i hMarked
        cases hRun
        exact ⟨.refl _, hMarked, hTarget⟩
      · rename_i hNew
        have hParts : table.Explored target (name :: seen) seen' ∧
            ∀ part ∈ table.parts name, part ∈ seen' ∧ part ≠ target := by
          cases hBody : table.find? name with
          | none =>
            have hNone : table.parts name = [] := by rw [parts, hBody]
            rw [hNone] at hRun ⊢
            cases hRun
            exact ⟨.refl _, nofun⟩
          | some body =>
            refine explored_of_foldlM (fun more more' part hMore hPart => ?_) hRun
            have hFewer := unseen_lt (fun s hIn => hMore (.tail name hIn)) hBody
              (hMore (.head _)) hNew
            have hSome : more ≠ [] := List.ne_nil_of_mem (hMore (.head _))
            rcases ih (by omega) hPart with ⟨hExplored, hIn, hOther⟩
            exact ⟨hExplored, hIn, hOther hSome⟩
        rcases hParts with ⟨hExplored, hEach⟩
        refine ⟨⟨fun s hIn => hExplored.kept (.tail name hIn), ?_⟩,
          hExplored.kept (.head _), hTarget⟩
        intro a hIn hUnseen b hPart
        by_cases hSame : a = name
        · exact hEach b (hSame ▸ hPart)
        · exact hExplored.parts a hIn (List.not_mem_cons_of_ne_of_not_mem hSame hUnseen) b hPart

theorem isCyclic_iff : table.isCyclic r = true ↔ Relation.TransGen table.Contains r r := by
  rw [isCyclic, Option.isNone_iff_eq_none]
  constructor
  · intro hFound
    rw [search_succ, if_neg (by simp), if_neg (by simp)] at hFound
    rcases exists_of_foldlM_none hFound with ⟨part, hPart, seen, hRest⟩
    rcases path_of_search hRest with rfl | hPath
    · exact .single hPart
    · exact .head hPart hPath
  · intro hCycle
    cases hRun : table.search r (table.bodies.length + 1) [] r with
    | none => rfl
    | some seen =>
      have hFuel : table.unseen [] < table.bodies.length + 1 :=
        Nat.lt_succ_of_le List.countP_le_length
      rcases explored_of_search hFuel hRun with ⟨hExplored, hStart, -⟩
      -- all that is contained in the record is seen and is another record
      have hOther : ∀ s, Relation.TransGen table.Contains r s → s ∈ seen ∧ s ≠ r := by
        intro s hPath
        induction hPath with
        | single hStep => exact hExplored.parts r hStart (List.not_mem_nil) _ hStep
        | tail _ hStep ih => exact hExplored.parts _ ih.1 List.not_mem_nil _ hStep
      exact absurd rfl (hOther r hCycle).2

end RecordTable

----
-- Layouts
----

/- No record of the type contains itself. -/
def Ty.FiniteLayout (table : RecordTable) (t : Ty) : Prop := ∀ r s, t.directRecord? = some r →
    Relation.ReflTransGen table.Contains r s → ¬ Relation.TransGen table.Contains s s

theorem Ty.not_contains_of_complaint {t : Ty}
    (hNone : t.recordComplaint? table = none) (hRecord : t.directRecord? = some r) :
    ¬ Relation.TransGen table.Contains r r := by
  intro hCycle
  simp [recordComplaint?, selfContained?, hRecord, RecordTable.isCyclic_iff.mpr hCycle] at hNone

/- The type that an operation gives storage to. -/
def Operation.storedType? (op : Operation) : Option Ty := match op.kind with
  | .alloca | .allocMem => (op.attr? "in_type").bind Attr.type?
  | .global => (op.attr? "type").bind Attr.type?
  | _ => none

namespace Module

variable {m : Module} {op : Operation}

theorem verifyAlloc_answers (hOp : m.op o = .ok op)
    (hAlloc : Answers (verifyAlloc records m o) ()) :
    ∃ t, (op.attr? "in_type").bind Attr.type? = some t ∧ t.recordComplaint? records = none := by
  unfold verifyAlloc at hAlloc
  simp only [answers_bind, answers_checkedOp, answers_typeAttr] at hAlloc
  rcases hAlloc with ⟨_, -, _, -, t, ⟨op', hOp', hType⟩, hRest⟩
  cases hOp.symm.trans hOp'
  refine ⟨t, hType, ?_⟩
  split at hRest
  · exact absurd hRest not_answers_reject
  · simp only [answers_bind] at hRest
    rcases hRest with ⟨_, -, _, -, _, -, hRest⟩
    split at hRest
    · rcases answers_bind.mp hRest with ⟨_, hReject, -⟩
      exact absurd hReject not_answers_reject
    · assumption

theorem verifyGlobal_answers (hOp : m.op o = .ok op)
    (hGlobal : Answers (verifyGlobal records m o) ()) :
    ∃ t, (op.attr? "type").bind Attr.type? = some t ∧ t.recordComplaint? records = none := by
  unfold verifyGlobal at hGlobal
  simp only [answers_bind, answers_checkedOp, answers_typeAttr] at hGlobal
  rcases hGlobal with ⟨_, -, _, -, t, ⟨op', hOp', hType⟩, hRest⟩
  cases hOp.symm.trans hOp'
  refine ⟨t, hType, ?_⟩
  split at hRest
  · rcases answers_bind.mp hRest with ⟨_, hReject, -⟩
    exact absurd hReject not_answers_reject
  · assumption

theorem storedType?_checked (hOp : m.op o = .ok op)
    (hKind : op.kind ∈ [.alloca, .allocMem, .global])
    (hChecked : Answers (verifyKind records m o op.kind) ()) :
    ∃ t, op.storedType? = some t ∧ t.recordComplaint? records = none := by
  unfold Operation.storedType?
  simp only [List.mem_cons, List.not_mem_nil, or_false] at hKind
  rcases hKind with hKind | hKind | hKind <;> rw [hKind] at hChecked ⊢
  · exact verifyAlloc_answers hOp hChecked
  · exact verifyAlloc_answers hOp hChecked
  · exact verifyGlobal_answers hOp hChecked

/-
  In a verified module, the record of an allocated or global type
  does not contain itself. The layout of the type is finite unless
  the record contains another one that contains itself.
-/
theorem storedTypes_finite (hVerify : Answers (verify records m) ()) :
    ∃ walked, m.walk = .ok walked ∧ ∀ o ∈ walked, ∃ op, m.op o = .ok op ∧
        (op.kind ∈ [.alloca, .allocMem, .global] → ∃ t, op.storedType? = some t ∧
            (∀ r, t.directRecord? = some r → ¬ Relation.TransGen records.Contains r r) ∧
            ((∀ r s, t.directRecord? = some r → Relation.TransGen records.Contains r s → s ≠ r →
                ¬ Relation.TransGen records.Contains s s) → t.FiniteLayout records)) := by
  rcases verify_answers.mp hVerify with ⟨-, walked, hWalk, hOps⟩
  refine ⟨walked, hWalk, fun o hMember => ?_⟩
  rcases verifyOp_answers.mp (hOps o hMember) with ⟨op, hOp, -, -, hChecked⟩
  refine ⟨op, hOp, fun hKind => ?_⟩
  rcases storedType?_checked hOp hKind hChecked with ⟨t, hType, hNone⟩
  refine ⟨t, hType, fun r => Ty.not_contains_of_complaint hNone, ?_⟩
  intro hParts r s hRecord hPath
  rcases Relation.reflTransGen_iff_eq_or_transGen.mp hPath with rfl | hInner
  · exact Ty.not_contains_of_complaint hNone hRecord
  · intro hCycle
    refine hParts r s hRecord hInner ?_ hCycle
    rintro rfl
    exact Ty.not_contains_of_complaint hNone hRecord hCycle

/- A function that allocates a record on the stack. -/
def allocating (name : String) : Option Module := (emptyAfter {}).built
    [([], .func "f" (.function [] [])), ([], .funcBody ⟨0⟩),
      ([⟨0⟩], .alloca (.record name) none [] []), ([⟨0⟩], .ret [])]

/- The function is verified, and its second operation allocates. -/
def Allocates (records : RecordTable) (name : String) (m : Module) : Prop :=
  Answers (verify records m) () ∧ m.walk = .ok [⟨0⟩, ⟨1⟩, ⟨2⟩] ∧ ∃ op ∈ m.ops[1]?,
    op.kind = .alloca ∧ op.storedType? = some (.record name)

instance (records : RecordTable) (name : String) : DecidablePred (Allocates records name) :=
  fun _ => inferInstanceAs (Decidable (_ ∧ _))

/- A cell with a pair in it, which refers to the next cell. -/
def cells : RecordTable := ⟨[("cell", ⟨[("x", .sequence [.known 2] (.record "pair")),
      ("next", .ptr (.record "cell"))], 0⟩), ("pair", ⟨[("a", .i1), ("b", .i1)], 0⟩)]⟩

theorem storedTypes_finite_cell : ∃ m o op, allocating "cell" = some m ∧
      Answers (verify cells m) () ∧ m.op o = .ok op ∧ op.storedType? = some (.record "cell") ∧
      (Ty.record "cell").FiniteLayout cells := by
  have hFound : ∃ m ∈ allocating "cell", Allocates cells "cell" m := by decide +kernel
  rcases hFound with ⟨m, hBuilt, hVerify, hWalk, op, hOp, hKind, hType⟩
  have hOp : m.op ⟨1⟩ = .ok op := op_eq_ok_iff.mpr hOp
  refine ⟨m, ⟨1⟩, op, hBuilt, hVerify, hOp, hType, ?_⟩
  rcases storedTypes_finite hVerify with ⟨found, hFound, hAll⟩
  cases hWalk.symm.trans hFound
  rcases hAll ⟨1⟩ (by simp) with ⟨op', hOp', hFinite⟩
  cases hOp.symm.trans hOp'
  rcases hFinite (by simp [hKind]) with ⟨t, hT, -, hFinite⟩
  cases hType.symm.trans hT
  refine hFinite fun r s hRecord _ hOther hCycle => ?_
  -- a cycle would pass through the pair, which has no parts
  cases hRecord
  rcases Relation.TransGen.head'_iff.mp hCycle with ⟨b, hStep, -⟩
  have hNone : cells.parts s = [] := by
    by_cases hPair : s = "pair"
    · rw [hPair]
      decide
    · simp [RecordTable.parts, RecordTable.find?, cells, List.lookup, beq_eq_false_iff_ne.mpr hOther,
        beq_eq_false_iff_ne.mpr hPair]
  rw [RecordTable.Contains, hNone] at hStep
  cases hStep

/- A record around one that contains itself. -/
def wrapped : RecordTable := ⟨[("r", ⟨[("y", .record "s")], 0⟩), ("s", ⟨[("x", .record "s")], 0⟩)]⟩

theorem not_storedTypes_finite_inner : ∃ m o op, allocating "r" = some m ∧
      Answers (verify wrapped m) () ∧ m.op o = .ok op ∧ op.storedType? = some (.record "r") ∧
      ¬ (Ty.record "r").FiniteLayout wrapped := by
  have hFound : ∃ m ∈ allocating "r", Allocates wrapped "r" m := by decide +kernel
  rcases hFound with ⟨m, hBuilt, hVerify, -, op, hOp, -, hType⟩
  refine ⟨m, ⟨1⟩, op, hBuilt, hVerify, op_eq_ok_iff.mpr hOp, hType, fun hFinite => ?_⟩
  have hOuter : wrapped.Contains "r" "s" := by
    change "s" ∈ wrapped.parts "r"
    decide
  have hInner : wrapped.Contains "s" "s" := by
    change "s" ∈ wrapped.parts "s"
    decide
  exact hFinite "r" "s" rfl (.single hOuter) (.single hInner)

end Module

end FortranIR
