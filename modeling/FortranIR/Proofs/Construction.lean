import FortranIR.Builder
import FortranIR.Proofs.Change

/-
  This file defines the modules that builders construct.

  A builder creates an operation and places it at once, at the
  end of its insertion point, so operations are placed in the
  order of their handles. All steps of builders are made of this
  step, of new blocks and of lookups.

  Main declarations:
    * `BuildStep`
    * `Module.Constructed.reached`
-/

namespace FortranIR

variable {α : Type} {m : Module} {f : Edit α} {x : Build α}

----
-- Steps of builders
----

/- A step of a builder that creates operations of a known form. -/
inductive BuildStep where
  | constant (type : Ty) (value : Attr)
  | constInt (type : Ty) (n : Int64)
  | constFloat (type : Ty) (x : Binary64)
  | undefined (type : Ty)
  | alloca (inType : Ty) (name : Option String) (lenParams shape : List ValueId)
  | allocMem (inType : Ty) (name : Option String) (lenParams shape : List ValueId)
  | freeMem (heap : ValueId)
  | load (memref : ValueId)
  | store (value memref : ValueId)
  | convert (value : ValueId) (type : Ty)
  | binary (kind : OpKind) (lhs rhs : ValueId)
  | cmpF (p : FloatPredicate) (lhs rhs : ValueId)
  | cmpI (p : IntPredicate) (lhs rhs : ValueId)
  | call (callee : String) (args : List ValueId) (resultTypes : List Ty)
  | embox (memref : ValueId)
  | boxAddr (boxed : ValueId)
  | genTypeDesc (type : Ty)
  | addressOf (symbol : String) (type : Ty)
  | ifOp (cond : ValueId) (resultTypes : List Ty) (withElse : Bool)
  | doLoop (lower upper step : ValueId) (unordered : Bool) (inits : List ValueId)
  | iterateWhile (lower upper step ok : ValueId) (inits : List ValueId)
  | result (values : List ValueId)
  | select (records : RecordTable) (kind : OpKind) (selector : ValueId) (cases : List Case)
  | br (dest : BlockId) (args : List ValueId)
  | condBr (cond : ValueId) (thenDest : BlockId) (thenArgs : List ValueId) (elseDest : BlockId)
      (elseArgs : List ValueId)
  | ret (values : List ValueId)
  | unreachable
  | func (name : String) (type : Ty)
  | funcBody (func : OpId)
  | global (name : String) (type : Ty) (linkage : Option Linkage) (isConstant : Bool)
      (init : Option Attr)
  | globalBody (global : OpId)
  | hasValue (value : ValueId)
  | dispatchTable (name : String)
  | dtEntry (method procedure : String)

/- Make a step, and leave its answer aside. -/
def BuildStep.run : BuildStep → Build Unit
  | .constant type value => discard (Build.constant type value)
  | .constInt type n => discard (Build.constInt type n)
  | .constFloat type x => discard (Build.constFloat type x)
  | .undefined type => discard (Build.undefined type)
  | .alloca inType name lenParams shape => discard (Build.alloca inType name lenParams shape)
  | .allocMem inType name lenParams shape => discard (Build.allocMem inType name lenParams shape)
  | .freeMem heap => discard (Build.freeMem heap)
  | .load memref => discard (Build.load memref)
  | .store value memref => discard (Build.store value memref)
  | .convert value type => discard (Build.convert value type)
  | .binary kind lhs rhs => discard (Build.binary kind lhs rhs)
  | .cmpF p lhs rhs => discard (Build.cmpF p lhs rhs)
  | .cmpI p lhs rhs => discard (Build.cmpI p lhs rhs)
  | .call callee args resultTypes => discard (Build.call callee args resultTypes)
  | .embox memref => discard (Build.embox memref)
  | .boxAddr boxed => discard (Build.boxAddr boxed)
  | .genTypeDesc type => discard (Build.genTypeDesc type)
  | .addressOf symbol type => discard (Build.addressOf symbol type)
  | .ifOp cond resultTypes withElse => discard (Build.ifOp cond resultTypes withElse)
  | .doLoop lower upper step unordered inits =>
    discard (Build.doLoop lower upper step unordered inits)
  | .iterateWhile lower upper step ok inits =>
    discard (Build.iterateWhile lower upper step ok inits)
  | .result values => discard (Build.result values)
  | .select records kind selector cases => discard (Build.select records kind selector cases)
  | .br dest args => discard (Build.br dest args)
  | .condBr cond thenDest thenArgs elseDest elseArgs =>
    discard (Build.condBr cond thenDest thenArgs elseDest elseArgs)
  | .ret values => discard (Build.ret values)
  | .unreachable => discard Build.unreachable
  | .func name type => discard (Build.func name type)
  | .funcBody o => discard (Build.funcBody o)
  | .global name type linkage isConstant init =>
    discard (Build.global name type linkage isConstant init)
  | .globalBody o => discard (Build.globalBody o)
  | .hasValue value => discard (Build.hasValue value)
  | .dispatchTable name => discard (Build.dispatchTable name)
  | .dtEntry method procedure => discard (Build.dtEntry method procedure)

namespace Build

----
-- Steps that return
----

theorem edit_eq_ok : edit f b = .ok a b' ↔
      f b.module = .ok a b'.module ∧ b'.points = b.points := by
  unfold edit
  cases f b.module with
  | ok x m =>
    simp only [EStateM.Result.ok.injEq]
    constructor
    · rintro ⟨hAnswer, rfl⟩
      exact ⟨⟨hAnswer, rfl⟩, rfl⟩
    · rintro ⟨⟨hAnswer, hModule⟩, hPoints⟩
      cases b'
      cases hModule
      cases hPoints
      exact ⟨hAnswer, rfl⟩
  | error fault m => simp

theorem read_eq_ok {f : Module → Except Fault α} (hRun : read f b = .ok a b') :
    f b.module = .ok a ∧ b' = b := by
  rcases edit_eq_ok.mp hRun with ⟨hRead, hPoints⟩
  rcases Module.read_eq_ok_iff.mp hRead with ⟨hFound, hModule⟩
  cases b
  cases hPoints
  cases hModule
  exact ⟨hFound, rfl⟩

section

variable (hRun : create kind operands types attrs count successors b = .ok o b')
include hRun

/- A new operation is placed at the insertion point. -/
theorem create_eq_ok :
    ∃ m, Module.newOp kind operands types attrs count successors b.module = .ok o m ∧
      ((∃ block, Module.appendOp block o m = .ok () b'.module) ∨
        Module.pushTop o m = .ok () b'.module) := by
  rcases bind_eq_ok hRun with ⟨o', b₁, hNew, hRest⟩
  rcases bind_eq_ok hRest with ⟨_, b₂, hInsert, hDone⟩
  cases hDone
  refine ⟨b₁.module, (edit_eq_ok.mp hNew).1, ?_⟩
  rcases bind_eq_ok hInsert with ⟨_, _, hGet, hPlace⟩
  cases hGet
  cases hHead : b₁.points.head? with
  | none =>
    rw [hHead] at hPlace
    exact .inr (edit_eq_ok.mp hPlace).1
  | some block =>
    rw [hHead] at hPlace
    exact .inl ⟨block, (edit_eq_ok.mp hPlace).1⟩

/- What is created is there with all that it was given. -/
theorem create_op :
    ∃ m op, Module.newOp kind operands types attrs count successors b.module = .ok o m ∧
      b'.module.ops = m.ops ∧ b'.module.op o = .ok op ∧ op.kind = kind ∧ op.operands = operands ∧
      op.attrs = attrs ∧ op.successors = successors := by
  rcases create_eq_ok hRun with ⟨m, hNew, hPlace⟩
  have hOps : b'.module.ops = m.ops := by
    rcases hPlace with ⟨block, hPlace⟩ | hPlace
    · rcases Module.appendOp_eq_ok_iff.mp hPlace with ⟨_, _, _, -, -, -, -, -, hAfter⟩
      rw [hAfter]
    · rw [(Module.pushTop_eq_ok_iff.mp hPlace).2]
  rcases Module.newOp_eq_ok hNew with ⟨rfl, -, -, values, blocks, regions, rfl, -⟩
  have hOp : b'.module.ops[b.module.handles.op]? = some _ :=
    (congrArg (·[b.module.handles.op]?) hOps).trans (getElem?_insert_nat.trans (if_pos rfl))
  exact ⟨_, _, hNew, hOps, Module.op_eq_ok_iff.mpr hOp, rfl, rfl, rfl, rfl⟩

end

----
-- Properties that steps keep
----

/- A step that returns keeps a property of the module. -/
def Keeps {α : Type} (p : Module → Prop) (x : Build α) : Prop :=
  ∀ b a b', x b = .ok a b' → p b.module → p b'.module

section Keeps

variable {β : Type}

theorem Keeps.bind {f : α → Build β} (hFirst : Keeps p x) (hNext : ∀ a, Keeps p (f a)) :
    Keeps p (x >>= f) := by
  intro b a b' hRun hBefore
  rcases bind_eq_ok hRun with ⟨c, b₁, hX, hF⟩
  exact hNext c b₁ a b' hF (hFirst b c b₁ hX hBefore)

theorem Keeps.pure (a : α) : Keeps p (pure a : Build α) := by
  intro b c b' hRun hBefore
  cases hRun
  exact hBefore

theorem Keeps.throw (fault : Fault) : Keeps p (throw fault : Build α) := by
  intro b a b' hRun
  cases hRun

theorem Keeps.edit (hKeeps : ∀ m a m', f m = .ok a m' → p m → p m') : Keeps p (edit f) :=
  fun b a b' hRun => hKeeps b.module a b'.module (edit_eq_ok.mp hRun).1

theorem Keeps.read (f : Module → Except Fault α) : Keeps p (read f) := by
  intro b a b' hRun hBefore
  rw [(read_eq_ok hRun).2]
  exact hBefore

theorem Keeps.discard (hKeeps : Keeps p x) : Keeps p (discard x) :=
  .bind hKeeps fun _ => .pure _

end Keeps

end Build

/-
  What a new operation and a new block keep, every step keeps.
  Only globals are created with the kind of a global, and they
  get one region.
-/
theorem BuildStep.keeps (hCreate : ∀ kind operands types attrs count successors,
        (kind = .global → count = 1) → Build.Keeps p
          (Build.create kind operands types attrs count successors)) (hBlock :
      ∀ r types m m', (Change.newBlock r types).run m = .ok () m' → p m → p m')
    (s : BuildStep) : Build.Keeps p s.run := by
  have hValue : ∀ kind operands type attrs, kind ≠ .global → Build.Keeps p
          (Build.createValue kind operands type attrs) := by
    intro kind operands type attrs hOther
    exact .bind (hCreate _ _ _ _ _ _ fun hSame => absurd hSame hOther)
      fun o => .read _
  have hPlain : ∀ kind operands attrs successors, kind ≠ .global → Build.Keeps p
          (Build.createPlain kind operands attrs successors) := by
    intro kind operands attrs successors hOther
    exact hCreate _ _ _ _ _ _ fun hSame => absurd hSame hOther
  -- an element type is looked up before the creation
  have hElement : ∀ (v : ValueId) (f : Ty → Build ValueId), (∀ t, Build.Keeps p (f t)) →
        Build.Keeps p (Build.elementOrVoid v >>= f) := by
    intro v f hNext
    exact .bind (.bind (.read _) fun _ => .pure _) hNext
  have hNewBlock : ∀ r types, Build.Keeps p (Build.edit (Module.newBlock r types)) := by
    intro r types
    refine .edit fun m b m' hRun => ?_
    exact hBlock r types m m' (bind_of_ok hRun rfl)
  -- a block is created in a region that is looked up
  have hBody : ∀ {α : Type} (o : OpId) (i : Nat) (types : List Ty)
          (f : BlockId → Build α), (∀ b, Build.Keeps p (f b)) → Build.Keeps p (do
          let b ← Build.edit (Module.newBlock (← Build.regionOf o i) types)
          f b) := by
    intro α o i types f hNext
    exact .bind (.read _) fun r => .bind (hNewBlock r types) hNext
  cases s with
  | constant | constInt | constFloat | undefined | alloca | allocMem
  | convert | cmpF | cmpI | genTypeDesc | addressOf =>
    refine .discard (hValue _ _ _ _ ?_)
    decide
  | freeMem | store | result | br | condBr | ret | unreachable
  | hasValue | dtEntry =>
    refine .discard (hPlain _ _ _ _ ?_)
    decide
  | load | embox | boxAddr =>
    refine .discard (hElement _ _ fun t => hValue _ _ _ _ ?_)
    decide
  | binary =>
    refine .discard ?_
    unfold Build.binary
    split
    · intro b v b' hRun
      cases hRun
    · rename_i hBinary
      refine .bind (.read _) fun t => hValue _ _ _ _ ?_
      rintro rfl
      exact hBinary rfl
  | call | func => exact .discard (hCreate _ _ _ _ _ _ nofun)
  | ifOp =>
    refine .discard (.bind (hCreate _ _ _ _ _ _ nofun) fun o => ?_)
    refine hBody o 0 [] _ fun _ => ?_
    split
    · exact hBody o 1 [] _ fun _ => .pure o
    · exact .pure o
  | doLoop | iterateWhile =>
    refine .discard (.bind (.read _) fun types => ?_)
    refine .bind (hCreate _ _ _ _ _ _ nofun) fun o => ?_
    exact hBody o 0 _ _ fun _ => .pure o
  | select records kind selector cases =>
    refine .discard ?_
    by_cases hSelect : kind.isSelect = true
    · rw [Build.select, if_neg (by simp [hSelect])]
      split
      · exact .throw _
      · refine hPlain _ _ _ _ ?_
        rintro rfl
        cases hSelect
    · rw [Build.select, if_pos (by simp [hSelect])]
      intro b o b' hRun
      cases hRun
  | funcBody =>
    refine .discard (.bind (.read _) fun op => ?_)
    split
    · exact .throw _
    · exact .bind (.read _) fun r => hNewBlock r _
  | global =>
    exact .discard (hCreate _ _ _ _ _ _ fun _ => rfl)
  | globalBody =>
    exact .discard (.bind (.read _) fun r => hNewBlock r _)
  | dispatchTable =>
    refine .discard (.bind (hCreate _ _ _ _ _ _ nofun) fun o => ?_)
    exact hBody o 0 [] _ fun _ => .pure o

----
-- Constructed modules
----

/- The change puts no operation at a place. -/
def Change.placesNone : Change → Bool
  | .newOp .. | .appendOp .. | .pushTop .. => false
  | _ => true

/-
  The modules that come from an empty one by steps of builders at
  any insertion points, and by changes that place no operation.
-/
inductive Module.Constructed : Module → Prop where
  | empty (handles : Handles) : Constructed (emptyAfter handles)
  | create {b b' : Builder} {kind : OpKind} {operands : List ValueId} {types : List Ty}
      {attrs : AttrMap} {count : Nat} {successors : List BlockId} {o : OpId}
      (hBefore : Constructed b.module)
      (hRun : Build.create kind operands types attrs count successors b = .ok o b') :
      Constructed b'.module
  | build {b b' : Builder} (s : BuildStep) (hBefore : Constructed b.module)
      (hRun : s.run b = .ok () b') : Constructed b'.module
  | change {m m' : Module} (c : Change) (hPlaces : c.placesNone = true) (hBefore : Constructed m)
      (hRun : c.run m = .ok () m') : Constructed m'
  | elsewhere {m : Module} {handles : Handles} (hBefore : Constructed m)
      (hOp : m.handles.op ≤ handles.op) (hValue : m.handles.value ≤ handles.value)
      (hBlock : m.handles.block ≤ handles.block) (hRegion : m.handles.region ≤ handles.region) :
      Constructed { m with handles := handles }

namespace Module

/-
  What empty modules have, and new operations, changes and other
  modules keep, constructed modules have.
-/
theorem Constructed.induction (hEmpty : ∀ handles, p (emptyAfter handles)) (hCreate :
      ∀ kind operands types attrs count successors, Build.Keeps p
          (Build.create kind operands types attrs count successors))
    (hChange : ∀ (c : Change) (m m' : Module), c.placesNone = true →
        c.run m = .ok () m' → p m → p m')
    (hElsewhere : ∀ (m : Module) (handles : Handles), m.handles.op ≤ handles.op →
        m.handles.value ≤ handles.value → m.handles.block ≤ handles.block →
        m.handles.region ≤ handles.region → p m → p { m with handles := handles })
    (hConstructed : m.Constructed) : p m := by
  induction hConstructed with
  | empty handles => exact hEmpty handles
  | create _ hRun ih => exact hCreate _ _ _ _ _ _ _ _ _ hRun ih
  | build s _ hRun ih =>
    refine s.keeps ?_ ?_ _ _ _ hRun ih
    · intro kind operands types attrs count successors _
      exact hCreate kind operands types attrs count successors
    · intro r types m m' hNew
      exact hChange (.newBlock r types) m m' rfl hNew
  | change c hPlaces _ hRun ih => exact hChange c _ _ hPlaces hRun ih
  | elsewhere _ hOp hValue hBlock hRegion ih =>
    exact hElsewhere _ _ hOp hValue hBlock hRegion ih

theorem reached_create (kind : OpKind) (operands : List ValueId) (types : List Ty) (attrs : AttrMap)
    (count : Nat) (successors : List BlockId) :
    Build.Keeps Reached (Build.create kind operands types attrs count successors) := by
  intro b o b' hRun hReached
  rcases Build.create_eq_ok hRun with ⟨m, hNew, hPlace⟩
  have hNext : m.Reached := hReached.change (.newOp kind operands types attrs count successors)
      (bind_of_ok hNew rfl)
  rcases hPlace with ⟨block, hPlace⟩ | hPlace
  · exact hNext.change (.appendOp block o) hPlace
  · exact hNext.change (.pushTop o) hPlace

/- The module after some steps, each at its insertion points. -/
def built (m : Module) (steps : List (List BlockId × BuildStep)) : Option Module := steps.foldlM
    (fun m step =>
      match step.2.run ⟨m, step.1⟩ with
      | .ok _ b => some b.module
      | .error _ _ => none) m

/- What builder steps keep, a list of them keeps. -/
theorem built_keeps (hKeeps : ∀ s : BuildStep, Build.Keeps p s.run)
    (hBefore : p m)
    (hBuilt : m.built steps = some m') : p m' := by
  induction steps generalizing m with
  | nil =>
    cases hBuilt
    exact hBefore
  | cons step steps ih =>
    rcases Option.bind_eq_some_iff.mp hBuilt with ⟨m₁, hFirst, hRest⟩
    cases hRun : step.2.run ⟨m, step.1⟩ with
    | ok u b =>
      simp only [hRun, Option.some.injEq] at hFirst
      subst hFirst
      exact ih (hKeeps step.2 _ _ b hRun hBefore) hRest
    | error fault b =>
      simp only [hRun] at hFirst
      cases hFirst

theorem Constructed.reached (hConstructed : m.Constructed) : m.Reached :=
  hConstructed.induction .empty reached_create (fun c _ _ _ hRun hReached => hReached.change c hRun)
    (fun _ _ hOp hValue hBlock hRegion hReached => hReached.elsewhere hOp hValue hBlock hRegion)

end Module

end FortranIR
