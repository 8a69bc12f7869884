import FortranIR.Intrinsic.Call
import FortranIR.Module.Printer
import FortranIR.Proofs.Reading.Modules

/-
  This file shows that calls of intrinsic procedures leave marks
  in a module that its text does not have.

  A wrapper and a library function are declared with a mark. No
  step takes a mark away, and the text form of a function has no
  place for one. So a module with a function that was declared
  for a call is like no module that is read.

  Main declarations:
    * `Operation.Flagged`
    * `Module.Expanded.not_isomorphic`
-/

namespace FortranIR

open Build

variable {α β : Type} {m m₀ : Module} {b : Builder} {kind : OpKind} {operands : List ValueId}
variable {block : BlockId} {attrs : AttrMap} {type : Ty}
variable {f : Build α}

/- A function has the mark of a wrapper or of a library function. -/
def Operation.Flagged (op : Operation) : Prop := op.kind = .func →
    op.attrs.hasFlag "fir.intrinsic" = true ∨ op.attrs.hasFlag "fir.runtime" = true

/- All functions that a module has more than another one have marks. -/
def Module.FlagsNew (m₀ m : Module) : Prop := ∀ (k : Nat) (op : Operation), m.ops[k]? = some op →
    m₀.ops[k]? = none → op.Flagged

----
-- Steps of builders
----

theorem Module.FlagsNew.trans (hOps : m₁.ops = m.ops) (hFlags : m₀.FlagsNew m) :
    m₀.FlagsNew m₁ := by
  intro k op hOp
  rw [hOps] at hOp
  exact hFlags k op hOp

/- A new operation with a mark, if it is a function. -/
theorem Module.FlagsNew.newOp (hFlagged : kind = .func →
      attrs.hasFlag "fir.intrinsic" = true ∨ attrs.hasFlag "fir.runtime" = true)
    (hFlags : m₀.FlagsNew b.module)
    (hRun : Module.newOp kind operands types attrs count successors b.module = .ok o m) :
    m₀.FlagsNew m := by
  rcases newOp_eq_ok hRun with
    ⟨rfl, -, -, values, blocks, regions, rfl, -⟩
  intro k op hOp hNew
  rw [getElem?_insert_nat] at hOp
  split at hOp
  · cases hOp
    exact hFlagged
  · exact hFlags k op hOp hNew

namespace Build

theorem Keeps.flags_create (hKind : kind ≠ .func) :
    Keeps m₀.FlagsNew (create kind operands types attrs count successors) := by
  intro b o b' hRun hFlags
  rcases create_op hRun with ⟨m, _, hNew, hOps, -⟩
  exact Module.FlagsNew.trans hOps (hFlags.newOp (fun hFunc => absurd hFunc hKind) hNew)

theorem Keeps.flags_createValue {attrs : List (String × Attr)} (hKind : kind ≠ .func) :
    Keeps m₀.FlagsNew (createValue kind operands type attrs) :=
  .bind (.flags_create hKind) fun _ => .read _

theorem Keeps.flags_newBlock (r : RegionId) (types : List Ty) :
    Keeps m₀.FlagsNew (Build.edit (Module.newBlock r types)) := by
  refine .edit fun m block m' hRun hFlags => ?_
  rcases Module.newBlock_eq_ok (bind_of_ok hRun rfl) with ⟨_, m₁, hNew, hPlace⟩
  rcases Module.newDetachedBlock_run r types m with ⟨values, hRun', -⟩
  cases hNew.symm.trans hRun'
  rcases Module.placeBlock_eq_ok_iff.mp hPlace with ⟨_, _, -, -, -, rfl⟩
  exact hFlags.trans rfl

theorem within_eq_ok (hRun : within block f b = .ok a b') :
    ∃ b₁, f { b with points := block :: b.points } = .ok a b₁ ∧ b' = restore b.points.length b₁ := by
  unfold within at hRun
  split at hRun
  · rename_i hInner
    cases hRun
    exact ⟨_, hInner, rfl⟩
  · cases hRun

theorem Keeps.within (hKeeps : Keeps p f) :
    Keeps p (within block f) := by
  intro b a b' hRun hBefore
  rcases within_eq_ok hRun with ⟨b₁, hInner, rfl⟩
  exact hKeeps { b with points := block :: b.points } a b₁ hInner hBefore

theorem Keeps.flags_binary (hKind : kind ≠ .func) (lhs rhs : ValueId) :
    Keeps m₀.FlagsNew (binary kind lhs rhs) := by
  unfold binary
  split
  · exact .bind (.throw _) fun _ =>
      .bind (.read _) fun _ => .flags_createValue hKind
  · exact .bind (.read _) fun _ => .flags_createValue hKind

end Build

namespace Expand

variable (args : List ValueId)

theorem coerce_keeps (v : ValueId) (type : Ty) : Build.Keeps m₀.FlagsNew (coerce v type) := by
  refine .bind (.read _) fun t => ?_
  split
  · exact .pure v
  · exact .flags_createValue nofun

theorem callOf_keeps (callee : String) (args : List ValueId) (result : Ty) :
    Build.Keeps m₀.FlagsNew (callOf callee args result) :=
  .bind (.flags_create nofun) fun _ => .read _

theorem choose_keeps (cond x y : ValueId) : Build.Keeps m₀.FlagsNew (choose cond x y) := by
  refine .bind (.read _) fun type => .bind ?_ fun o => ?_
  · refine .bind (.flags_create nofun) fun o => ?_
    refine .bind (.read _) fun r => ?_
    refine .bind (.flags_newBlock r []) fun _ => ?_
    refine .bind (.read _) fun r => ?_
    exact .bind (.flags_newBlock r []) fun _ => .pure o
  · refine .bind (.read _) fun thenBlock => ?_
    refine .bind (.read _) fun elseBlock => ?_
    refine .bind (.within (.flags_create nofun)) fun _ => ?_
    refine .bind (.within (.flags_create nofun)) fun _ => ?_
    exact .read _

/- A function is declared with one of the two marks. -/
theorem declare_keeps (name : String) (type : Ty)
    (hMark : mark = "fir.intrinsic" ∨ mark = "fir.runtime") :
    Build.Keeps m₀.FlagsNew (declare name type mark) := by
  refine .bind (.edit fun m o m' hRun hFlags => ?_) fun func => ?_
  · refine Module.FlagsNew.newOp (b := ⟨m, []⟩) (fun _ => ?_) hFlags hRun
    rcases hMark with rfl | rfl
    · exact .inl (by cbv)
    · exact .inr (by cbv)
  · refine .bind (.edit fun m o m' hRun hFlags => ?_) fun _ =>
      .pure func
    rw [(Module.pushTop_eq_ok_iff.mp hRun).2]
    exact hFlags.trans rfl

----
-- Expansion
----

/- A step that returns a value keeps a property of the module. -/
def Keeps (p : Module → Prop) (x : Expand α) : Prop :=
  ∀ b a b', x.run b = .ok (.ok a) b' → p b.module → p b'.module

theorem Keeps.lift (hKeeps : Build.Keeps p x) : Keeps p (liftM x : Expand α) := by
  intro b a b' hRun
  rcases bind_eq_ok hRun with ⟨a', b₁, hFirst, hDone⟩
  cases hDone
  exact hKeeps b a b' hFirst

theorem Keeps.bind {f : α → Expand β} (hFirst : Keeps p x)
    (hNext : ∀ a, Keeps p (f a)) : Keeps p (x >>= f) := by
  intro b c b' hRun hBefore
  rcases bind_eq_ok hRun with ⟨first, b₁, hX, hF⟩
  cases first with
  | error e => cases hF
  | ok a => exact hNext a b₁ c b' hF (hFirst b a b₁ hX hBefore)

theorem Keeps.pure (a : α) : Keeps p (pure a : Expand α) := by
  intro b c b' hRun hBefore
  cases hRun
  exact hBefore

theorem Keeps.refuse (e : IntrinsicError) : Keeps p (refuse e : Expand α) := by
  intro b a b' hRun
  cases hRun

theorem Keeps.ite [Decidable c] {x y : Expand α} (hThen : Keeps p x) (hElse : Keeps p y) :
    Keeps p (if c then x else y) := by
  split
  · exact hThen
  · exact hElse

theorem Keeps.look (f : Module → Except Fault α) : Keeps p (look f) :=
  .lift (.read f)

theorem Keeps.mapM {f : α → Expand β} (hEach : ∀ a, Keeps p (f a)) (as : List α) :
    Keeps p (as.mapM f) := by
  induction as with
  | nil => exact .pure []
  | cons a as ih =>
    rw [List.mapM_cons]
    exact .bind (hEach a) fun _ => .bind ih fun _ => .pure _

theorem Keeps.foldlM {f : β → α → Expand β} (hEach : ∀ s a, Keeps p (f s a)) (as : List α) (s : β) :
    Keeps p (as.foldlM f s) := by
  induction as generalizing s with
  | nil => exact .pure s
  | cons a as ih => exact .bind (hEach s a) ih

variable {options : IntrinsicOptions} {name : String} {result : Ty}

theorem libraryCall_keeps :
    Keeps m₀.FlagsNew (libraryCall options name result args) := by
  refine .bind (.look _) fun types => ?_
  split
  · exact .refuse _
  · exact .refuse _
  · rename_i f _
    have hCall : Keeps m₀.FlagsNew (do
        let converted ← (args.zip f.params).mapM fun a => (coerce a.1 a.2 : Build ValueId)
        let value ← callOf f.symbol converted f.result
        if f.result = result then return value else convert value result) := by
      refine .bind (.mapM (fun a => .lift (coerce_keeps _ _)) _) fun converted => ?_
      refine .bind (.lift (callOf_keeps _ _ _)) fun value => ?_
      exact .ite (.pure value) (.lift (.flags_createValue nofun))
    refine .bind (.look _) fun found => .ite ?_ hCall
    exact .bind (.lift (declare_keeps _ _ (.inr rfl))) fun _ => hCall

theorem signed_keeps (zero : Attr) (sub : OpKind) (hSub : sub ≠ .func)
    (positive : ValueId) (isNegative : ValueId → Build ValueId)
    (hCompare : ∀ v, Build.Keeps m₀.FlagsNew (isNegative v)) : Keeps m₀.FlagsNew (do
      let zero ← constant type zero
      let negated ← binary sub zero positive
      let negative ← isNegative zero
      (choose negative negated positive : Build ValueId) : Expand ValueId) := by
  refine .bind (.lift (.flags_createValue nofun)) fun zero => ?_
  refine .bind (.lift (.flags_binary hSub zero positive)) fun negated => ?_
  refine .bind (.lift (hCompare zero)) fun negative => ?_
  exact .lift (choose_keeps _ _ _)

theorem abs_keeps : Keeps m₀.FlagsNew (abs options result args) := by
  unfold abs
  split
  · refine .bind (.lift (.read _)) fun type => ?_
    split
    · exact signed_keeps (.int 0) .subI nofun _ (cmpI .slt _)
        fun _ => .flags_createValue nofun
    · exact libraryCall_keeps _
    · exact libraryCall_keeps _
    · exact .refuse _
  · exact .refuse _

theorem inPlace_keeps (procedure : Intrinsic) :
    Keeps m₀.FlagsNew (inPlace options name result args procedure) := by
  have hExtremum : ∀ larger, Keeps m₀.FlagsNew (extremum name larger args) := by
    intro larger
    unfold extremum
    split
    · refine .foldlM (fun best arg => ?_) _ _
      refine .bind ?_ fun wins => .lift (choose_keeps _ _ _)
      refine .bind (.lift (.read _)) fun type => ?_
      split
      · exact .lift (.flags_createValue nofun)
      · exact .lift (.flags_createValue nofun)
      · exact .refuse _
    · exact .refuse _
  cases procedure with
  | abs => exact abs_keeps args
  | conversion =>
    change Keeps _ (conversion name result args)
    unfold conversion
    split
    · exact .lift (.flags_createValue nofun)
    · exact .lift (.flags_createValue nofun)
    · exact .refuse _
  | max => exact hExtremum true
  | min => exact hExtremum false
  | mod => exact libraryCall_keeps args
  | sign =>
    change Keeps _ (sign options result args)
    unfold sign
    split
    · refine .bind (abs_keeps _) fun positive => ?_
      split
      · exact signed_keeps (.int 0) .subI nofun _ (cmpI .slt _)
          fun _ => .flags_createValue nofun
      · exact signed_keeps (.float ⟨0⟩) .subF nofun _ (cmpF .olt _)
          fun _ => .flags_createValue nofun
      · exact .refuse _
    · exact .refuse _

----
-- Wrappers
----

theorem body_keeps : Keeps m₀.FlagsNew (body options name result args) := by
  unfold body
  split
  · exact inPlace_keeps args _
  · exact libraryCall_keeps args

theorem buildWrapper_keeps (wrapper : String) (params : List Ty) :
    Keeps m₀.FlagsNew (buildWrapper options name wrapper params result) := by
  refine .bind (.lift (declare_keeps _ _ (.inl rfl))) fun func => ?_
  refine .bind (.lift ?_) fun entry => .bind (.look _) fun args => ?_
  · refine .bind (.read _) fun op => ?_
    split
    · exact .throw _
    · exact .bind (.read _) fun r => .flags_newBlock r _
  · -- a refusal in the wrapper is passed on
    intro b u b' hRun hBefore
    rcases bind_eq_ok hRun with ⟨first, b₁, hFirst, hRest⟩
    rcases bind_eq_ok hFirst with ⟨inner, b₂, hInner, hDone⟩
    cases inner with
    | error e =>
      cases hDone
      rcases bind_eq_ok hRest with ⟨gone, b₃, -, hRefuse⟩
      cases gone <;> cases hRefuse
    | ok o =>
      cases hDone
      cases hRest
      have hReturn : Keeps m₀.FlagsNew (do Build.ret [← body options name result args]) :=
        .bind (body_keeps args) fun _ => .lift (.flags_create nofun)
      rcases Build.within_eq_ok hInner with ⟨b₁, hBody, rfl⟩
      exact hReturn { b with points := entry :: b.points } o b₁ hBody hBefore

theorem wrapped_keeps :
    Keeps m₀.FlagsNew (wrapped options name result args) := by
  refine .bind (.look _) fun params => .bind ?_ fun wrapper => ?_
  · intro b wrapper b' hRun hBefore
    injection hRun with _ hSame
    exact hSame ▸ hBefore
  · have hCall : Keeps m₀.FlagsNew (liftM (callOf wrapper args result) : Expand ValueId) :=
      .lift (callOf_keeps _ _ _)
    refine .bind (.look _) fun found => ?_
    split
    · refine .bind (.look _) fun op => ?_
      split
      · exact .bind (.lift (.throw _)) fun _ => hCall
      · exact hCall
    · exact .bind (buildWrapper_keeps _ _) fun _ => hCall

/- Every function that a call declares has a mark. -/
theorem intrinsicCall_keeps :
    Keeps m₀.FlagsNew (intrinsicCall options name result args) := by
  unfold intrinsicCall
  split
  · exact wrapped_keeps args
  · split
    · exact wrapped_keeps args
    · exact inPlace_keeps args _

end Expand

----
-- Modules with calls
----

/-
  A module to which calls of intrinsic procedures have been
  added, and other operations that are no functions.
-/
inductive Module.Expanded (m₀ : Module) : Module → Prop where
  | start : Expanded m₀ m₀
  | call {b b' : Builder} {options : IntrinsicOptions} {name : String} {result : Ty}
      {args : List ValueId} {v : ValueId} (hBefore : Expanded m₀ b.module)
      (hCall : (Expand.intrinsicCall options name result args).run b = .ok (.ok v) b') :
      Expanded m₀ b'.module
  | create {b b' : Builder} {kind : OpKind} {operands : List ValueId} {types : List Ty}
      {attrs : AttrMap} {count : Nat} {successors : List BlockId} {o : OpId}
      (hBefore : Expanded m₀ b.module) (hKind : kind ≠ .func)
      (hCreate : Build.create kind operands types attrs count successors b = .ok o b') :
      Expanded m₀ b'.module

namespace Module

theorem Expanded.flagged (hExpanded : m₀.Expanded m) : m₀.FlagsNew m := by
  induction hExpanded with
  | start => exact fun k op hOp hNew => by rw [hNew] at hOp; cases hOp
  | call _ hCall ih => exact Expand.intrinsicCall_keeps _ _ _ _ hCall ih
  | create _ hKind hCreate ih => exact Build.Keeps.flags_create hKind _ _ _ hCreate ih

/-
  No text is read as a module with a function that a call has
  declared, so the text that is printed for it is not either.
-/
theorem Expanded.not_isomorphic {o : OpId} {op : Operation} (hExpanded : m₀.Expanded m)
    (hTop : o ∈ m.top) (hOp : m.op o = .ok op) (hKind : op.kind = .func)
    (hNew : m₀.ops[o.index]? = none) {handles : Handles} {records : RecordTable} {log : Log}
    {input : Input} {m₁ : Module}
    (hRead : (Module.read handles records log input).outcome = .ok (.ok m₁)) :
    m.isomorphic m₁ ≠ .ok true := by
  intro hSame
  rcases Module.unmarked_of_isomorphic hRead hSame hTop with ⟨found, hFound, hUnmarked⟩
  cases hOp.symm.trans hFound
  rcases hUnmarked hKind with ⟨name, t, -, hAttrs⟩
  have hFlagged := hExpanded.flagged _ op (op_eq_ok_iff.mp hOp) hNew hKind
  have hPlain : ∀ mark, mark = "fir.intrinsic" ∨ mark = "fir.runtime" →
      op.attrs.hasFlag mark = false := by
    rw [hAttrs]
    rintro mark (rfl | rfl)
    · cbv
    · cbv
  rcases hFlagged with hMark | hMark
  · rw [hPlain _ (.inl rfl)] at hMark
    cases hMark
  · rw [hPlain _ (.inr rfl)] at hMark
    cases hMark

/-
  What holds of a module that is read, of the same module when a
  function returns the value of a call, and of what is read from
  the text that is printed for it.
-/
def readsBack (text name : String) (result : Ty) (args : List ValueId) (block : BlockId)
    (test : Module → Module → Module → Bool) : Bool :=
  match (Module.read {} {} {} (Input.ofString text)).outcome with
  | .ok (.ok m₀) =>
    match (Expand.intrinsicCall {} name result args).run ⟨m₀, [block]⟩ with
    | .ok (.ok v) b =>
      match Build.ret [v] b with
      | .ok _ b' =>
        match b'.module.print {} with
        | .ok printed =>
          match (Module.read {} {} {} (Input.ofString printed)).outcome with
          | .ok (.ok m₁) => test m₀ b'.module m₁
          | _ => false
        | _ => false
      | _ => false
    | _ => false
  | _ => false

theorem exists_of_readsBack {result : Ty}
    (hTest : readsBack text name result args block test = true) :
    ∃ m₀ m printed m₁, (Module.read {} {} {} (Input.ofString text)).outcome = .ok (.ok m₀) ∧
      m₀.Expanded m ∧ m.print {} = .ok printed ∧
      (Module.read {} {} {} (Input.ofString printed)).outcome = .ok (.ok m₁) ∧
      test m₀ m m₁ = true := by
  unfold readsBack at hTest
  repeat' split at hTest
  all_goals first | cases hTest | skip
  rename_i m₀ hStart _ v b hCall _ o b' hReturn _ printed hPrint _ m₁ hRead
  have hKind : OpKind.ret ≠ .func := nofun
  exact ⟨m₀, b'.module, printed, m₁, hStart, .create (.call .start hCall) hKind hReturn, hPrint,
    hRead, hTest⟩

/- A function without operations. -/
def emptyFunction : String := "func @f : (f32) -> (f32) \x7b\n^bb0(%0: f32):\n\x7d\n"

theorem Expanded.not_isomorphic_root :
    ∃ m₀ m m₁ : Module, m₀.Expanded m ∧ m.isomorphic m₁ ≠ .ok true := by
  have hTest : readsBack emptyFunction "sqrt" (.real 4) [⟨0⟩] ⟨0⟩ (fun m₀ m _ =>
      decide (⟨1⟩ ∈ m.top ∧ m₀.ops[1]? = none ∧ ∃ op ∈ m.ops[1]?, op.kind = .func)) = true := by
    decide +kernel
  rcases exists_of_readsBack hTest with ⟨m₀, m, text, m₁, -, hExpanded, -, hRead, hTest⟩
  rcases of_decide_eq_true hTest with ⟨hTop, hNew, op, hOp, hKind⟩
  exact ⟨m₀, m, m₁, hExpanded,
    hExpanded.not_isomorphic hTop (op_eq_ok_iff.mpr hOp) hKind hNew hRead⟩

/- A module that verifies is not read back from its text. -/
theorem not_isomorphic_printed_root : ∃ m₀ m text m₁,
    (Module.read {} {} {} (Input.ofString emptyFunction)).outcome = .ok (.ok m₀) ∧
    m₀.Expanded m ∧ Answers (verify {} m) () ∧ m.print {} = .ok text ∧
    (Module.read {} {} {} (Input.ofString text)).outcome = .ok (.ok m₁) ∧
    m.isomorphic m₁ ≠ .ok true := by
  have hTest : readsBack emptyFunction "sqrt" (.real 4) [⟨0⟩] ⟨0⟩ (fun _ m m₁ =>
      decide (Answers (verify {} m) () ∧ m.isomorphic m₁ = .ok false)) = true := by decide +kernel
  rcases exists_of_readsBack hTest with ⟨m₀, m, text, m₁, hStart, hExpanded, hPrint, hRead, hTest⟩
  rcases of_decide_eq_true hTest with ⟨hVerify, hOther⟩
  refine ⟨m₀, m, text, m₁, hStart, hExpanded, hVerify, hPrint, hRead, ?_⟩
  rw [hOther]
  nofun

end Module

end FortranIR
