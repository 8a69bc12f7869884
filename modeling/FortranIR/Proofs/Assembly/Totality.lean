import FortranIR.Proofs.Assembly.Run
import FortranIR.Proofs.Assembly.Whole

/-
  This file shows that every text can be assembled, whatever its
  names and types are: errors in it are reported, and the only
  fault is an excerpt that can not be shown.

  The steps are the ones of a text without errors, but less is
  known of a draft between them. What has been named exists, and
  what waits for a value is a placeholder.

  Main declarations:
    * `Draft.Whole`
    * `Assemble.top_returns`
-/

namespace FortranIR

variable {s : Setting} {m : Module}
variable {d d' : Draft} {records : RecordTable} {v : ValueId} {b : BlockId} {message : String}
variable {l : Layer} {name : Name} {h : BlockHead} {labels : BlockLabels}
variable {span : Span} {bs : List BlockId} {r : RegionId}

----
-- Labels
----

/-
  The labels of an open region. Its blocks exist, and those that
  are not defined have no place yet.
-/
structure BlockLabels.Whole (s : Setting) (m : Module) (labels : BlockLabels) : Prop where
  region : ∃ bs, m.regionBlocks labels.region = .ok bs ∧
      ∀ n label, labels.blocks.lookup n = some label → label.defined = false → label.block ∉ bs
  blocks : ∀ n label, labels.blocks.lookup n = some label → m.IsIn labels.region label.block
  distinct : ∀ n n' label label', labels.blocks.lookup n = some label →
      labels.blocks.lookup n' = some label' → label.block = label'.block → n = n'
  spans : ∀ n label, labels.blocks.lookup n = some label → s.Shows label.span

theorem Module.Keeps.isIn (hKeeps : m.Keeps all opened m') (hIn : m.IsIn r b) : m'.IsIn r b := by
  rcases hIn with ⟨info, hInfo, rfl⟩
  exact hKeeps.blocks _ info hInfo

namespace BlockLabels

theorem whole_empty (hBlocks : m.regionBlocks r = .ok bs) :
    BlockLabels.Whole s m { region := r } where
  region := ⟨bs, hBlocks, by simp⟩
  blocks := by simp
  distinct := by simp
  spans := by simp

namespace Whole

theorem keep (hWhole : labels.Whole s m) (hKeeps : m.Keeps all opened m')
    (hClosed : ¬ opened labels.region) : labels.Whole s m' where
  region := by
    rcases hWhole.region with ⟨bs, hBlocks, hOpen⟩
    rcases hKeeps.regions _ bs hBlocks with ⟨bs', hBlocks', hSame⟩
    rw [hSame hClosed] at hBlocks'
    exact ⟨bs, hBlocks', hOpen⟩
  blocks := fun n label hFound => hKeeps.isIn (hWhole.blocks n label hFound)
  distinct := hWhole.distinct
  spans := hWhole.spans

/- The entry of a name is added, or takes the place of another. -/
theorem add (n : String) (label : BlockLabel) (hWhole : labels.Whole s m)
    (hBlocks : m.regionBlocks labels.region = .ok bs) (hIn : m.IsIn labels.region label.block)
    (hOpen : label.defined = false → label.block ∉ bs)
    (hOther : ∀ n' label', labels.blocks.lookup n' = some label' →
        label'.block = label.block → n' = n)
    (hSpan : s.Shows label.span) : { labels with
      blocks := (n, label) :: labels.blocks
      : BlockLabels }.Whole s m where
  region := by
    rcases hWhole.region with ⟨bs', hBlocks', hPlaced⟩
    cases hBlocks.symm.trans hBlocks'
    refine ⟨bs, hBlocks, fun n' label' hFound => ?_⟩
    rcases lookup_cons_eq_some hFound with ⟨-, rfl⟩ | ⟨-, hOld⟩
    · exact hOpen
    · exact hPlaced n' label' hOld
  blocks := by
    intro n' label' hFound
    rcases lookup_cons_eq_some hFound with ⟨-, rfl⟩ | ⟨-, hOld⟩
    · exact hIn
    · exact hWhole.blocks n' label' hOld
  distinct := by
    intro n₁ n₂ label₁ label₂ hFound₁ hFound₂ hSame
    rcases lookup_cons_eq_some hFound₁ with ⟨rfl, rfl⟩ | ⟨-, hOld₁⟩
    · rcases lookup_cons_eq_some hFound₂ with ⟨rfl, rfl⟩ | ⟨-, hOld₂⟩
      · rfl
      · exact (hOther n₂ label₂ hOld₂ hSame.symm).symm
    · rcases lookup_cons_eq_some hFound₂ with ⟨rfl, rfl⟩ | ⟨-, hOld₂⟩
      · exact hOther n₁ label₁ hOld₁ hSame
      · exact hWhole.distinct n₁ n₂ label₁ label₂ hOld₁ hOld₂ hSame
  spans := by
    intro n' label' hFound
    rcases lookup_cons_eq_some hFound with ⟨-, rfl⟩ | ⟨-, hOld⟩
    · exact hSpan
    · exact hWhole.spans n' label' hOld

/- A block that is defined gets its place. -/
theorem place {label : BlockLabel} (hWhole : labels.Whole s m)
    (hKeeps : m.Keeps all (· = labels.region) m') (hBlocks : m.regionBlocks labels.region = .ok bs)
    (hBlocks' : m'.regionBlocks labels.region = .ok (bs ++ [label.block]))
    (hFound : labels.blocks.lookup n = some label) (hDefined : label.defined = true) :
    labels.Whole s m' where
  region := by
    rcases hWhole.region with ⟨bs', hOld, hPlaced⟩
    cases hBlocks.symm.trans hOld
    refine ⟨_, hBlocks', fun n' label' hFound' hOpen hMember => ?_⟩
    rcases List.mem_append.mp hMember with hBefore | hLast
    · exact hPlaced n' label' hFound' hOpen hBefore
    · rw [List.mem_singleton] at hLast
      have hName := hWhole.distinct _ _ _ _ hFound' hFound hLast
      subst hName
      rw [hFound, Option.some.injEq] at hFound'
      rw [← hFound', hDefined] at hOpen
      cases hOpen
  blocks := fun n' label' hFound' => hKeeps.isIn (hWhole.blocks n' label' hFound')
  distinct := hWhole.distinct
  spans := hWhole.spans

end Whole

end BlockLabels

----
-- Drafts
----

/- What has been named in a draft exists, and can be shown. -/
structure Draft.Whole (s : Setting) (d : Draft) : Prop where
  module : d.module.Assembled
  written : d.module.Written
  values : ∀ e ∈ d.values, d.module.Real e.2
  forward : ∀ e ∈ d.forward, s.Shows e.2.2 ∧ ∃ info, d.module.values[e.2.1.index]? = some info ∧
        info.defined = .placeholder
  waiting : d.waiting.Nodup
  labels : ∀ labels ∈ d.labels, labels.Whole s d.module
  source : s.shown → d.log.source = s.source

/- The region whose blocks are being assembled. -/
def Draft.Opens (d : Draft) (r : RegionId) : Prop := d.labels.map BlockLabels.region = some r

/- A draft has grown into another one, in the same region. -/
structure Draft.Reaches (s : Setting) (all : Prop) (opened : RegionId → Prop)
    (d d' : Draft) : Prop where
  whole : d'.Whole s
  keeps : d.module.Keeps all opened d'.module
  labels : d'.labels.map BlockLabels.region = d.labels.map BlockLabels.region

namespace Draft

variable {d₁ : Draft}

section

variable (hWhole : d.Whole s)
include hWhole

/- The open region is not a new one. -/
theorem Whole.regionBlocks (hOpens : d.Opens r) :
    ∃ bs, d.module.regionBlocks r = .ok bs := by
  rcases Option.map_eq_some_iff.mp hOpens with ⟨labels, hLabels, rfl⟩
  rcases (hWhole.labels labels hLabels).region with ⟨bs, hBlocks, -⟩
  exact ⟨bs, hBlocks⟩

theorem Whole.with_log {l : Log} (hSource : l.source = d.log.source) :
    { d with log := l : Draft }.Whole s where
  __ := hWhole
  source := fun hShown => hSource.trans (hWhole.source hShown)
/- Everything stays in the module. -/
theorem Whole.with_module (hModule : m.Assembled)
    (hKeeps : d.module.Keeps True opened m) (hLabels : ∀ labels ∈ d.labels, labels.Whole s m) :
    { d with module := m : Draft }.Whole s where
  module := hModule
  written := hKeeps.written hWhole.written
  values := fun e hMember => hKeeps.real (hWhole.values e hMember)
  forward := by
    intro e hMember
    rcases hWhole.forward e hMember with ⟨hSpan, info, hInfo, hKind⟩
    rcases hKeeps.values _ info hInfo (.inl trivial) with ⟨info', hInfo', -, hSame⟩
    exact ⟨hSpan, info', hInfo', hSame.trans hKind⟩
  waiting := hWhole.waiting
  labels := hLabels
  source := hWhole.source

/- Everything stays in the module, and no block is placed. -/
theorem Whole.with_grown (hModule : m.Assembled)
    (hKeeps : d.module.Keeps True Module.NoRegion m) : { d with module := m : Draft }.Whole s :=
  hWhole.with_module hModule hKeeps fun labels hLabels =>
    (hWhole.labels labels hLabels).keep hKeeps id

theorem Whole.with_labels (hLabels : labels.Whole s d.module) :
    { d with labels := some labels : Draft }.Whole s where
  __ := hWhole
  labels := by
    intro labels' hMember
    rw [← Option.some.inj hMember]
    exact hLabels

end

namespace Reaches

theorem refl (hWhole : d.Whole s) : d.Reaches s all opened d := ⟨hWhole, .refl _, rfl⟩

theorem trans (hFirst : d₁.Reaches s all opened d₂) (hSecond : d₂.Reaches s all opened' d₃)
    (hOpened : ∀ r bs, d₁.module.regionBlocks r = .ok bs → opened' r → opened r) :
    d₁.Reaches s all opened d₃ :=
  ⟨hSecond.whole, hFirst.keeps.trans hSecond.keeps hOpened, hSecond.labels.trans hFirst.labels⟩

theorem forget (hReaches : d₁.Reaches s True opened d₂) : d₁.Reaches s all opened d₂ :=
  { hReaches with keeps := hReaches.keeps.forget }

/- More regions may be open. -/
theorem widen (hReaches : d₁.Reaches s all opened d₂) (hOpened :
      ∀ r bs, d₁.module.regionBlocks r = .ok bs → opened r → opened' r)
    (hWhole : d₁.Whole s) : d₁.Reaches s all opened' d₂ := (refl hWhole).trans hReaches hOpened

theorem opens_iff (hReaches : d₁.Reaches s all opened d₂) : d₂.Opens r ↔ d₁.Opens r := by
  unfold Opens
  rw [hReaches.labels]

end Reaches

end Draft

----
-- Steps that return
----

namespace Assemble

variable {α β : Type} {x : Assemble α} {f : α → Assemble β} {holds holds' : α → Draft → Prop}
variable {holdsNext : β → Draft → Prop} {a : α}

/-
  A step returns with something that holds. If it does not, there
  is an excerpt that can not be shown.
-/
def Returns (s : Setting) (x : Assemble α) (d : Draft) (holds : α → Draft → Prop) : Prop :=
  (∃ a d', x d = .ok a d' ∧ holds a d') ∨ ∃ d', x d = .error .charBoundary d' ∧ ¬ s.shown

namespace Returns

theorem of_ok (hRun : x d = .ok a d') (hHolds : holds a d') : Returns s x d holds :=
  .inl ⟨a, d', hRun, hHolds⟩

theorem pure (hHolds : holds a d) : Returns s (Pure.pure a) d holds := .of_ok rfl hHolds

theorem mono (hReturns : Returns s x d holds) (hMore : ∀ a d', holds a d' → holds' a d') :
    Returns s x d holds' := by
  rcases hReturns with ⟨a, d', hRun, hHolds⟩ | hFault
  · exact .inl ⟨a, d', hRun, hMore a d' hHolds⟩
  · exact .inr hFault

theorem bind (hFirst : Returns s x d holds)
    (hNext : ∀ a d', holds a d' → Returns s (f a) d' holdsNext) :
    Returns s (x >>= f) d holdsNext := by
  rcases hFirst with ⟨a, d₁, hRun, hHolds⟩ | ⟨d₁, hRun, hHidden⟩
  · unfold Returns
    rw [bind_of_ok hRun rfl]
    exact hNext a d₁ hHolds
  · exact .inr ⟨d₁, bind_of_error hRun, hHidden⟩

theorem bind_ok (hRun : x d = .ok a d') (hNext : Returns s (f a) d' holdsNext) :
    Returns s (x >>= f) d holdsNext := by
  unfold Returns
  rw [bind_of_ok hRun rfl]
  exact hNext

theorem edit_bind (hRun : change d.module = .ok a m)
    (hNext : Returns s (f a) { d with module := m } holdsNext) :
    Returns s (edit change >>= f) d holdsNext := bind_ok (Steps.edit_run hRun) hNext

theorem read_bind {look : Module → Except Fault α} (hFound : look d.module = .ok a)
    (hNext : Returns s (f a) d holdsNext) : Returns s (read look >>= f) d holdsNext :=
  edit_bind (Module.read_eq_ok_iff.mpr ⟨hFound, rfl⟩) hNext

/- A step may begin with a report. -/
theorem error {holds : Unit → Draft → Prop} (hWhole : d.Whole s) (hSpan : s.Shows span) (hNext :
      ∀ l, l.source = d.log.source → holds () { d with log := l }) :
    Returns s (Assemble.error span message) d holds := by
  unfold Returns Assemble.error
  rcases Setting.report_cases .error (some span) message hWhole.source (by simpa using hSpan) with
    ⟨l, hRun | ⟨hRun, hHidden⟩, hSame⟩
  · rw [hRun]
    exact .inl ⟨(), _, rfl, hNext l hSame.source⟩
  · rw [hRun]
    exact .inr ⟨_, rfl, hHidden⟩

theorem error_bind {f : Unit → Assemble β} (hWhole : d.Whole s) (hSpan : s.Shows span) (hNext :
      ∀ l, l.source = d.log.source → Returns s (f ()) { d with log := l } holdsNext) :
    Returns s (Assemble.error span message >>= f) d holdsNext := by
  refine .bind ?_ fun _ _ hReturns => hReturns
  exact .error hWhole hSpan hNext

end Returns

variable (records : RecordTable) (hWhole : d.Whole s)
include hWhole

/- A report leaves everything else as it is. -/
theorem reaches_log {l : Log} (hSource : l.source = d.log.source) :
    d.Reaches s all opened { d with log := l } := ⟨hWhole.with_log hSource, .refl _, rfl⟩

/- Some errors are reported one after another. -/
theorem errors_return {γ : Type} {span : γ → Span} {message : γ → String} {entries : List γ}
    (hSpans : ∀ e ∈ entries, s.Shows (span e)) :
    Returns s (entries.forM fun e => Assemble.error (span e) (message e)) d
      fun _ d' => d.Reaches s all opened d' := by
  induction entries generalizing d with
  | nil => exact .pure (.refl hWhole)
  | cons e entries ih =>
    rw [List.forall_mem_cons] at hSpans
    refine .error_bind hWhole hSpans.1 fun l hSource => ?_
    have hFirst : d.Reaches s all opened { d with log := l } := reaches_log hWhole hSource
    refine (ih hFirst.whole hSpans.2).mono fun _ d' hRest => ?_
    exact hFirst.trans hRest fun _ _ _ hOpen => hOpen

----
-- Values
----

/- What a name stands for exists. -/
theorem known_exists (hKnown : known? d n = some v) :
    ∃ info, d.module.values[v.index]? = some info := by
  unfold known? at hKnown
  cases hValue : d.values.lookup n with
  | some w =>
    rw [hValue, Option.some.injEq] at hKnown
    subst hKnown
    rcases hWhole.values _ (mem_of_lookup hValue) with ⟨info, hInfo, -⟩
    exact ⟨info, hInfo⟩
  | none =>
    rw [hValue] at hKnown
    rcases Option.map_eq_some_iff.mp hKnown with ⟨⟨w, span⟩, hWaits, rfl⟩
    rcases (hWhole.forward _ (mem_of_lookup hWaits)).2 with ⟨info, hInfo, -⟩
    exact ⟨info, hInfo⟩

theorem useValue_returns
    (hSpan : s.Shows operand.span) : Returns s (useValue records operand) d fun v d' =>
      d.Reaches s True Module.NoRegion d' ∧ ∃ info, d'.module.values[v.index]? = some info := by
  refine .bind_ok (x := get) rfl ?_
  cases hKnown : known? d operand.text with
  | some v =>
    rcases known_exists hWhole hKnown with ⟨info, hInfo⟩
    refine .read_bind (Module.typeOf_eq_ok_iff.mpr ⟨info, hInfo, rfl⟩) ?_
    split
    · refine .error_bind hWhole hSpan fun l hSource => ?_
      exact .pure ⟨reaches_log hWhole hSource, info, hInfo⟩
    · exact .pure ⟨.refl hWhole, info, hInfo⟩
  | none =>
    rcases hWhole.module.newPlaceholder operand.type with ⟨m', hRun, hAdds, hEntry⟩
    refine .edit_bind hRun ?_
    refine .bind_ok (x := modify _) rfl (.pure ?_)
    have hNext := hWhole.with_grown hAdds.assembled hAdds.keeps
    refine ⟨⟨{ hNext with forward := ?_, waiting := ?_ }, hAdds.keeps, rfl⟩, _, hEntry⟩
    · intro e hMember
      rcases List.mem_cons.mp hMember with rfl | hOld
      · exact ⟨hSpan, _, hEntry, rfl⟩
      · exact hNext.forward e hOld
    · refine List.nodup_cons.mpr ⟨fun hMember => ?_, hWhole.waiting⟩
      rcases List.mem_map.mp hMember with ⟨e, hOld, hSame⟩
      rcases (hWhole.forward e hOld).2 with ⟨info, hInfo, -⟩
      have hBelow := hWhole.module.bounded.values _ info hInfo
      rw [hSame] at hBelow
      exact Nat.lt_irrefl _ hBelow

theorem useValues_return {operands : List TypedName}
    (hSpans : ∀ x ∈ operands, s.Shows x.span) :
    Returns s (operands.mapM (useValue records)) d fun vs d' =>
      d.Reaches s True Module.NoRegion d' ∧
      ∀ v ∈ vs, ∃ info, d'.module.values[v.index]? = some info := by
  induction operands generalizing d with
  | nil => exact .pure ⟨.refl hWhole, by simp⟩
  | cons operand operands ih =>
    rw [List.forall_mem_cons] at hSpans
    rw [List.mapM_cons]
    refine .bind (useValue_returns records hWhole hSpans.1) ?_
    rintro v d₁ ⟨hFirst, info, hInfo⟩
    refine .bind (ih hFirst.whole hSpans.2) ?_
    rintro vs d₂ ⟨hRest, hValues⟩
    refine .pure ⟨hFirst.trans hRest fun _ _ _ hOpen => hOpen, ?_⟩
    refine List.forall_mem_cons.mpr ⟨?_, hValues⟩
    rcases hRest.keeps.values _ info hInfo (.inl trivial) with ⟨info', hInfo', -⟩
    exact ⟨info', hInfo'⟩

/- A real value takes the place of what no name waits for. -/
theorem resolve_returns (hSpan : s.Shows name.span)
    (hInfo : d.module.values[p.index]? = some info) (hKind : info.defined = .placeholder)
    (hAbsent : p ∉ d.waiting) (hReal : d.module.Real v) :
    Returns s (resolve records name p v) d fun _ d' => d.Reaches s False Module.NoRegion d' := by
  rcases hReal with ⟨target, hTarget, hOther⟩
  rcases hWhole.module.resolve hInfo hKind hTarget hOther with
    ⟨-, m₁, m₂, hReplace, hRemove, hResolved⟩
  have hKeeps := hResolved.keeps hInfo hKind
  -- The same holds with and without a report before.
  have hLast : ∀ l : Log, l.source = d.log.source → Returns s (do
            edit (Module.replaceAllUses p v)
            edit (Module.removePlaceholder p)) { d with log := l } fun _ d' =>
            d.Reaches s False Module.NoRegion d' := by
    intro l hSource
    refine .edit_bind (m := m₁) hReplace
      (.of_ok (Steps.edit_run (m := m₂) hRemove) ⟨?_, hKeeps, rfl⟩)
    refine
      { module := hResolved.assembled
        written := hKeeps.written hWhole.written
        values := fun e hMember => hKeeps.real (hWhole.values e hMember)
        forward := ?_
        waiting := hWhole.waiting
        labels := fun labels hLabels => (hWhole.labels labels hLabels).keep hKeeps id
        source := fun hShown => hSource.trans (hWhole.source hShown) }
    intro e hMember
    rcases hWhole.forward e hMember with ⟨hSpan', old, hOld, hWaits⟩
    rcases hResolved.values _ old hOld fun hSame =>
      hAbsent (hSame ▸ List.mem_map_of_mem hMember) with ⟨users, hNew⟩
    exact ⟨hSpan', _, hNew, hWaits⟩
  refine .read_bind (Module.typeOf_eq_ok_iff.mpr ⟨info, hInfo, rfl⟩) ?_
  refine .read_bind (Module.typeOf_eq_ok_iff.mpr ⟨target, hTarget, rfl⟩) ?_
  split
  · exact .error_bind hWhole hSpan hLast
  · exact hLast d.log rfl

theorem define_returns (hSpan : s.Shows name.span) (hReal : d.module.Real v) :
    Returns s (define records name v) d fun _ d' => d.Reaches s False Module.NoRegion d' := by
  refine .bind_ok (x := get) rfl ?_
  split
  · refine .error hWhole hSpan fun l hSource => ?_
    exact reaches_log hWhole hSource
  · cases hLookup : d.forward.lookup name.text with
    | none =>
      refine .of_ok rfl ⟨{ hWhole with values := ?_ }, .refl _, rfl⟩
      exact List.forall_mem_cons.mpr ⟨hReal, hWhole.values⟩
    | some entry =>
      rcases entry with ⟨p, span⟩
      have hMember := mem_of_lookup hLookup
      rcases (hWhole.forward _ hMember).2 with ⟨info, hInfo, hKind⟩
      refine .bind_ok (x := modify _) rfl ?_
      let forward := d.forward.filter fun e => e.1 ≠ name.text
      have hNext : { d with forward := forward : Draft }.Whole s := { hWhole with
          forward := fun e hLeft => hWhole.forward e (List.mem_filter.mp hLeft).1
          waiting := hWhole.waiting.sublist (List.filter_sublist.map _) }
      have hAbsent : p ∉ { d with forward := forward : Draft }.waiting := by
        intro hWaits
        rcases List.mem_map.mp hWaits with ⟨e, hLeft, hSame⟩
        rcases List.mem_filter.mp hLeft with ⟨hOld, hName⟩
        have hEqual : e = (name.text, p, span) :=
          List.inj_on_of_nodup_map hWhole.waiting hOld hMember hSame
        rw [hEqual] at hName
        simp at hName
      refine .bind (resolve_returns records hNext hSpan hInfo hKind hAbsent hReal) ?_
      intro _ d₁ hReaches
      refine .of_ok rfl ⟨{ hReaches.whole with values := ?_ }, hReaches.keeps, hReaches.labels⟩
      exact List.forall_mem_cons.mpr ⟨hReaches.keeps.real hReal, hReaches.whole.values⟩

theorem defineAll_returns (hSpans : ∀ n ∈ names, s.Shows n.span)
    (hReal : ∀ v ∈ vs, d.module.Real v) :
    Returns s (defineAll records names vs) d fun _ d' => d.Reaches s False Module.NoRegion d' := by
  induction names generalizing vs d with
  | nil => exact .pure (.refl hWhole)
  | cons name names ih =>
    cases vs with
    | nil => exact .pure (.refl hWhole)
    | cons v vs =>
      rw [List.forall_mem_cons] at hSpans hReal
      refine .bind (define_returns records hWhole hSpans.1 hReal.1) ?_
      intro _ d₁ hFirst
      refine (ih hFirst.whole hSpans.2 fun w hMember =>
        hFirst.keeps.real (hReal.2 w hMember)).mono ?_
      intro _ d₂ hRest
      exact hFirst.trans hRest fun _ _ _ hOpen => hOpen

----
-- Blocks
----

omit hWhole in
/- A new block is in no region, and no label stands for it. -/
theorem detached_fresh (hModule : m.Assembled) (hLabels : labels.Whole s m)
    (hBlocks : m.regionBlocks labels.region = .ok bs) : ⟨m.handles.block⟩ ∉ bs ∧
    ∀ n label, labels.blocks.lookup n = some label → label.block ≠ ⟨m.handles.block⟩ := by
  constructor
  · exact fun hMember => Nat.lt_irrefl _ ((hModule.bounded.of_regionBlocks hBlocks).2 _ hMember)
  · intro n label hFound hSame
    rcases hLabels.blocks n label hFound with ⟨info, hInfo, -⟩
    have hBelow := (hModule.bounded.blocks _ info hInfo).1
    rw [hSame] at hBelow
    exact Nat.lt_irrefl _ hBelow

/- A new block without a place gets a name. -/
theorem newLabel_run (types : List Ty) (defined : Bool) (hLabels : d.labels = some labels)
    (hBlocks : d.module.regionBlocks labels.region = .ok bs) (hSpan : s.Shows span) :
    ∃ d' b, edit (Module.newDetachedBlock labels.region types) d = .ok b d' ∧
      d.Reaches s True Module.NoRegion { d' with
          labels := some
            { labels with blocks := (n, ⟨b, span, defined⟩) :: labels.blocks } } ∧
      d'.module.regionBlocks labels.region = .ok bs ∧ d'.module.IsIn labels.region b ∧ b ∉ bs := by
  rcases hWhole.module.newDetachedBlock hBlocks types with ⟨m', hRun, hAdds, hInfo, -⟩
  have hKeeps := hAdds.keeps
  have hIn : m'.IsIn labels.region ⟨d.module.handles.block⟩ := ⟨_, hInfo, rfl⟩
  have hOld := hWhole.labels labels hLabels
  rcases detached_fresh hWhole.module hOld hBlocks with ⟨hAbsent, hFresh⟩
  rcases hKeeps.regions _ bs hBlocks with ⟨bs', hBlocks', hSame⟩
  rw [hSame id] at hBlocks'
  have hNext := hWhole.with_grown hAdds.assembled hKeeps
  have hNew := BlockLabels.Whole.add n ⟨⟨d.module.handles.block⟩, span, defined⟩
      (hOld.keep hKeeps id) hBlocks' hIn (fun _ => hAbsent) (fun n' label hFound hEqual =>
        absurd hEqual (hFresh n' label hFound)) hSpan
  refine ⟨_, _, Steps.edit_run hRun, ⟨hNext.with_labels hNew, hKeeps, ?_⟩, hBlocks', hIn, hAbsent⟩
  rw [hLabels]
  rfl

theorem useBlock_returns (hSpan : s.Shows name.span) :
    Returns s (useBlock name) d fun found d' =>
      d.Reaches s True Module.NoRegion d' ∧
      ∀ b ∈ found, ∃ info, d'.module.blocks[b.index]? = some info := by
  refine .bind_ok (x := get) rfl ?_
  cases hLabels : d.labels with
  | none =>
    refine .error_bind hWhole hSpan fun l hSource => ?_
    exact .pure ⟨reaches_log hWhole hSource, by simp⟩
  | some labels =>
    have hOld := hWhole.labels labels hLabels
    dsimp only
    cases hLookup : labels.blocks.lookup name.text with
    | some label =>
      refine .pure ⟨.refl hWhole, fun b hFound => ?_⟩
      rw [← Option.some.inj hFound]
      rcases hOld.blocks _ label hLookup with ⟨info, hInfo, -⟩
      exact ⟨info, hInfo⟩
    | none =>
      rcases hOld.region with ⟨bs, hBlocks, -⟩
      rcases newLabel_run (n := name.text) hWhole [] false hLabels
        hBlocks hSpan with ⟨d', b, hRun, hReaches, -, hIn, -⟩
      refine .bind_ok hRun (.bind_ok (x := addLabel _ _ _) rfl
        (.pure ⟨hReaches, fun c hFound => ?_⟩))
      rw [← Option.some.inj hFound]
      rcases hIn with ⟨info, hInfo, -⟩
      exact ⟨info, hInfo⟩

theorem useBlocks_return (hSpans : ∀ n ∈ names, s.Shows n.span) :
    Returns s (useBlocks names) d fun bs d' =>
      d.Reaches s True Module.NoRegion d' ∧
      ∀ b ∈ bs, ∃ info, d'.module.blocks[b.index]? = some info := by
  induction names generalizing d with
  | nil => exact .pure ⟨.refl hWhole, by simp⟩
  | cons name names ih =>
    rw [List.forall_mem_cons] at hSpans
    refine .bind (useBlock_returns hWhole hSpans.1) ?_
    rintro found d₁ ⟨hFirst, hFound⟩
    refine .bind (ih hFirst.whole hSpans.2) ?_
    rintro bs d₂ ⟨hRest, hBlocks⟩
    refine .pure ⟨hFirst.trans hRest fun _ _ _ hOpen => hOpen, ?_⟩
    refine List.forall_mem_append.mpr ⟨fun b hMember => ?_, hBlocks⟩
    rcases hFound b (Option.mem_toList.mp hMember) with ⟨info, hInfo⟩
    rcases hRest.keeps.blocks _ info hInfo with ⟨info', hInfo', -⟩
    exact ⟨info', hInfo'⟩

/- A block that is named before gets its arguments. -/
theorem addBlockArgs_return (args : List TypedName)
    (hInfo : d.module.blocks[b.index]? = some info) : Returns s (args.forM fun arg => do
        let _ ← edit (Module.addBlockArg b arg.type)) d fun _ d' =>
        d.Reaches s True Module.NoRegion d' ∧ d'.labels = d.labels := by
  rcases addBlockArgs_run args hWhole.module hInfo with ⟨m, hRun, hAdds, -⟩
  exact .of_ok hRun ⟨⟨hWhole.with_grown hAdds.assembled hAdds.keeps, hAdds.keeps, rfl⟩, rfl⟩

omit hWhole in
/- A block that a header defines, before it gets its place. -/
structure Unplaced (labels : BlockLabels) (d : Draft) (b : BlockId) : Prop where
  absent : ∃ bs, d.module.regionBlocks labels.region = .ok bs ∧ b ∉ bs
  named : ∃ labels' n label, d.labels = some labels' ∧ labels'.region = labels.region ∧
      labels'.blocks.lookup n = some label ∧ label.block = b ∧ label.defined = true

theorem blockOfHead_returns (hLabels : d.labels = some labels) (hSpan : s.Shows h.span) :
    Returns s (blockOfHead labels h) d fun found d' =>
      d.Reaches s True Module.NoRegion d' ∧ ∀ b ∈ found, Unplaced labels d' b := by
  have hOld := hWhole.labels labels hLabels
  rcases hOld.region with ⟨bs, hBlocks, hOpen⟩
  unfold blockOfHead
  cases hLookup : labels.blocks.lookup h.name with
  | none =>
    rcases newLabel_run (n := h.name) hWhole (h.args.map TypedName.type)
      true hLabels hBlocks hSpan with ⟨d', b, hRun, hReaches, hBlocks', -, hAbsent⟩
    refine .bind_ok hRun (.bind_ok (x := addLabel _ _ _) rfl (.pure ⟨hReaches, fun c hFound => ?_⟩))
    rw [← Option.some.inj hFound]
    exact ⟨⟨bs, hBlocks', hAbsent⟩, _, h.name, _, rfl, rfl,
      List.lookup_cons_self, rfl, rfl⟩
  | some label =>
    dsimp only
    split
    · refine .error_bind hWhole hSpan fun l hSource => ?_
      exact .pure ⟨reaches_log hWhole hSource, by simp⟩
    · rename_i hUndefined
      have hAbsent := hOpen _ label hLookup (Bool.eq_false_iff.mpr hUndefined)
      refine .bind_ok (x := addLabel _ _ _) rfl ?_
      have hNew := hOld.add h.name { label with defined := true } hBlocks
          (hOld.blocks _ label hLookup) (by simp) (fun n' label' hFound hSame =>
            hOld.distinct _ _ _ _ hFound hLookup hSame) (hOld.spans _ label hLookup)
      have hNext := hWhole.with_labels hNew
      rcases hOld.blocks _ label hLookup with ⟨info, hInfo, -⟩
      refine .bind (addBlockArgs_return hNext h.args hInfo) ?_
      rintro - d' ⟨hReaches, hSame⟩
      have hAll : d.Reaches s True Module.NoRegion d' := by
        refine ⟨hReaches.whole, hReaches.keeps, ?_⟩
        rw [hReaches.labels, hLabels]
        rfl
      refine .pure ⟨hAll, fun c hFound => ?_⟩
      rw [← Option.some.inj hFound]
      rcases hReaches.keeps.regions _ bs hBlocks with ⟨bs', hBlocks', hKept⟩
      rw [hKept id] at hBlocks'
      exact ⟨⟨bs, hBlocks', hAbsent⟩, _, h.name, _, hSame, rfl,
        List.lookup_cons_self, rfl, rfl⟩

/- A block gets its place, and its arguments get their names. -/
theorem defineBlock_returns (hSpans : ∀ span ∈ h.spans, s.Shows span) :
    Returns s (defineBlock records h) d fun found d' =>
      d.Reaches s False d.Opens d' ∧ ∀ b ∈ found, ∃ os, d'.module.blockOps b = .ok os := by
  rw [BlockHead.spans, List.forall_mem_cons] at hSpans
  refine .bind_ok (x := get) rfl ?_
  cases hLabels : d.labels with
  | none => exact .pure ⟨.refl hWhole, by simp⟩
  | some labels =>
    refine .bind (blockOfHead_returns hWhole hLabels hSpans.1) ?_
    rintro (_ | b) d₁ ⟨hFirst, hFound⟩
    · refine .pure ⟨hFirst.forget.widen ?_ hWhole, by simp⟩
      exact fun _ _ _ hNone => hNone.elim
    · rcases hFound b rfl with ⟨⟨bs, hBlocks, hAbsent⟩, labels', n, label, hLabels',
          hRegion, hLookup, rfl, hDefined⟩
      have hNamed := hFirst.whole.labels labels' hLabels'
      rw [← hRegion] at hBlocks
      rcases hFirst.whole.module.placeBlock (hNamed.blocks n label hLookup) hBlocks hAbsent with
        ⟨m, hRun, hModule, hKeeps, hBlocks', hEmpty⟩
      have hPlaced := hNamed.place hKeeps hBlocks hBlocks' hLookup hDefined
      refine .edit_bind hRun ?_
      rcases hKeeps.isIn (hNamed.blocks n label hLookup) with ⟨info, hInfo, -⟩
      refine .read_bind (Module.block_eq_ok_iff.mpr hInfo) ?_
      have hSecond : d₁.Reaches s True (· = labels'.region) { d₁ with module := m } := by
        refine ⟨hFirst.whole.with_module hModule hKeeps ?_, hKeeps, rfl⟩
        intro other hOther
        rw [hLabels'] at hOther
        rw [← Option.some.inj hOther]
        exact hPlaced
      refine .bind (defineAll_returns records hSecond.whole ?_ fun v => hModule.args hInfo) ?_
      · intro name hMember
        rcases List.mem_map.mp hMember with ⟨arg, hArg, rfl⟩
        exact hSpans.2 _ (List.mem_map_of_mem hArg)
      · intro _ d₂ hThird
        rcases hThird.keeps.placed _ _ hEmpty with ⟨os, hOps⟩
        refine .pure ⟨?_, fun c hSame => ?_⟩
        · have hOpens : d.Opens labels'.region := by
            rw [Draft.Opens, hLabels, hRegion]
            rfl
          have hTwo : d.Reaches s False d.Opens { d₁ with module := m } := by
            refine ((hFirst.forget.widen ?_ hWhole).trans hSecond.forget ?_)
            · exact fun _ _ _ hNone => hNone.elim
            · rintro _ _ _ rfl
              exact hOpens
          exact hTwo.trans hThird fun _ _ _ hNone => hNone.elim
        · rw [← Option.some.inj hSame]
          exact ⟨os, hOps⟩

/- A region is assembled, and its undefined blocks are reported. -/
theorem inRegion_returns (hBlocks : d.module.regionBlocks r = .ok bs) (hOuter : ¬ d.Opens r)
    (hStep : ∀ d₁ : Draft, d₁.Whole s → d₁.Opens r → Returns s step d₁ fun _ d₂ =>
          d₁.Reaches s False (· = r) d₂) :
    Returns s (inRegion r step) d fun _ d' => d.Reaches s False (· = r) d' := by
  refine .bind_ok (x := get) rfl (.bind_ok (x := modify _) rfl ?_)
  refine .bind (hStep _ (hWhole.with_labels (BlockLabels.whole_empty hBlocks)) rfl) ?_
  intro _ d₁ hInner
  -- The labels of the outer region are not in the way.
  have hBack : d.Reaches s False (· = r) { d₁ with labels := d.labels } := by
    refine ⟨{ hInner.whole with labels := ?_ }, hInner.keeps, rfl⟩
    intro labels hLabels
    refine (hWhole.labels labels hLabels).keep hInner.keeps ?_
    rintro rfl
    exact hOuter (by rw [Draft.Opens, hLabels]; rfl)
  refine (errors_return hBack.whole ?_).mono fun _ d₂ hLast =>
    hBack.trans hLast fun _ _ _ hOpen => hOpen
  rintro ⟨n, label⟩ hMember
  cases hLabels : d₁.labels with
  | none => simp [hLabels] at hMember
  | some labels =>
    simp only [hLabels, Option.map_some, Option.getD_some] at hMember
    exact (hInner.whole.labels labels hLabels).spans n label (mem_undefinedLabels.mp hMember).1

----
-- Operations
----

/- An operation is created and placed. -/
theorem head_returns (span : Span) (count : Nat) {place : Option BlockId}
    {h : OpHead} (hSpans : ∀ span ∈ h.spans, s.Shows span)
    (hFlat : h.Flat count) (hPlace : ∀ b ∈ place, ∃ os, d.module.blockOps b = .ok os) :
    Returns s (head records place span h count) d fun o d' =>
      d.Reaches s True Module.NoRegion d' ∧
      ∃ op, d'.module.ops[o.index]? = some op ∧ (∀ v ∈ op.results, d'.module.Real v) ∧
        ∀ r ∈ op.regions, d'.module.regionBlocks r = .ok [] ∧
          ∀ bs, d.module.regionBlocks r ≠ .ok bs := by
  rw [OpHead.spans, List.forall_mem_append, List.forall_mem_map, List.forall_mem_map] at hSpans
  refine .bind (useValues_return records hWhole hSpans.1) ?_
  rintro operands d₁ ⟨hFirst, hOperands⟩
  refine .bind (useBlocks_return hFirst.whole hSpans.2) ?_
  rintro successors d₂ ⟨hSecond, hSuccessors⟩
  have hBefore : d.Reaches s True Module.NoRegion d₂ :=
    hFirst.trans hSecond fun _ _ _ hOpen => hOpen
  have hStill : ∀ v ∈ operands, ∃ info, d₂.module.values[v.index]? = some info := by
    intro v hMember
    rcases hOperands v hMember with ⟨info, hInfo⟩
    rcases hSecond.keeps.values _ info hInfo (.inl trivial) with ⟨info', hInfo', -⟩
    exact ⟨info', hInfo'⟩
  have hSpot : ∀ b ∈ place, ∃ os, d₂.module.blockOps b = .ok os := by
    intro b hMember
    rcases hPlace b hMember with ⟨os, hOps⟩
    exact hBefore.keeps.placed b os hOps
  rcases create_run h span count place hBefore.whole.module hStill hSuccessors hSpot with
    ⟨m₁, m₂, m₃, hNew, hSpan, hRun, hCreated, -, -, hPlaces⟩
  rcases hCreated.keeps hPlaces fun hFolds => (hFlat hFolds).imp
    (fun hNone => by simp [headOp, Module.regionIds, hNone]) id with ⟨hKeeps, hReal⟩
  have hDone : d.Reaches s True Module.NoRegion { d₂ with module := m₃ } ∧
      ∃ op, m₃.ops[d₂.module.handles.op]? = some op ∧ (∀ v ∈ op.results, m₃.Real v) ∧
        ∀ r ∈ op.regions, m₃.regionBlocks r = .ok [] ∧ ∀ bs, d.module.regionBlocks r ≠ .ok bs := by
    have hLast : d₂.Reaches s True Module.NoRegion { d₂ with module := m₃ } :=
      ⟨hBefore.whole.with_grown hCreated.assembled hKeeps, hKeeps, rfl⟩
    refine ⟨hBefore.trans hLast fun _ _ _ hOpen => hOpen, _, hCreated.entry, hReal,
      fun r hMember => ⟨(hCreated.regions r hMember).2, fun bs hOld => ?_⟩⟩
    rcases hBefore.keeps.regions r bs hOld with ⟨bs', hOld', -⟩
    have hBelow := (hBefore.whole.module.bounded.of_regionBlocks hOld').1
    have hNew := (Module.mem_regionIds.mp hMember).1
    omega
  refine .edit_bind hNew (.edit_bind hSpan ?_)
  cases place with
  | some | none => exact .edit_bind hRun (.pure hDone)

end Assemble

----
-- Texts
----

/- The nodes of a text can be added where they belong. -/
def Spot.Fits (d : Draft) : {l : Layer} → Spot l → Prop
  | _, .ops place => ∀ b ∈ place, ∃ os, d.module.blockOps b = .ok os
  | _, .regions ids => ∀ r ∈ ids, ¬ d.Opens r ∧ ∃ bs, d.module.regionBlocks r = .ok bs
  | _, .blocks => True

/- The regions in which the outermost blocks of a text go. -/
def Spot.Opened (d : Draft) (r : RegionId) : {l : Layer} → Spot l → Prop
  | _, .ops _ => False
  | _, .regions ids => r ∈ ids
  | _, .blocks => d.Opens r

/- What fits goes on to fit. -/
theorem Spot.Fits.after {spot : Spot l} (hFits : spot.Fits d)
    (hReaches : d.Reaches s all opened d') : spot.Fits d' := by
  cases spot with
  | ops place =>
    intro b hMember
    rcases hFits b hMember with ⟨os, hOps⟩
    exact hReaches.keeps.placed b os hOps
  | regions ids =>
    intro r hMember
    rcases hFits r hMember with ⟨hOuter, bs, hBlocks⟩
    rcases hReaches.keeps.regions r bs hBlocks with ⟨bs', hBlocks', -⟩
    exact ⟨fun hOpens => hOuter (hReaches.opens_iff.mp hOpens), bs', hBlocks'⟩
  | blocks => trivial

namespace Assemble

/- A text is assembled wherever it fits. -/
def Returning (s : Setting) (records : RecordTable) {l : Layer} (t : Text l) : Prop :=
  ∀ (spot : Spot l) (d : Draft), d.Whole s → t.Fine s → spot.Fits d →
    Returns s (forest records t spot) d fun _ d' => d.Reaches s False (fun r => spot.Opened d r) d'

/- An operation, its regions, its results, and what follows. -/
theorem op_returning {h : Span × OpHead} {inner : Text .regions} {rest : Text .ops}
    (ihInner : Returning s records inner) (ihRest : Returning s records rest) :
    Returning s records (.op h inner rest) := by
  rintro spot d hWhole ⟨hHead, hResults, hFlat, hInner, hRest⟩ hFits
  cases spot with
  | ops place =>
    refine .bind (head_returns records hWhole h.1 _ hHead hFlat hFits) ?_
    rintro o d₁ ⟨hFirst, op, hOp, hReal, hRegions⟩
    refine .read_bind (Module.op_eq_ok_iff.mpr hOp) ?_
    have hEmpty : Spot.Fits d₁ (.regions op.regions) := by
      intro r hMember
      refine ⟨fun hOpens => ?_, [], (hRegions r hMember).1⟩
      rcases hWhole.regionBlocks (hFirst.opens_iff.mp hOpens) with ⟨bs, hBlocks⟩
      exact (hRegions r hMember).2 bs hBlocks
    refine .bind (ihInner (.regions op.regions) d₁ hFirst.whole hInner hEmpty) ?_
    intro _ d₂ hSecond
    rcases hSecond.keeps.ops _ op hOp with ⟨op', hOp', hSame, -⟩
    refine .read_bind (Module.op_eq_ok_iff.mpr hOp') ?_
    refine .bind (defineAll_returns records hSecond.whole hResults fun v hMember =>
      hSecond.keeps.real (hReal v (hSame ▸ hMember))) ?_
    intro _ d₃ hThird
    -- The regions of the operation are new, so none was opened.
    have hAll : d.Reaches s False Module.NoRegion d₃ := by
      refine (hFirst.forget.trans hSecond ?_).trans hThird ?_
      · exact fun r bs hBlocks hNew => (hRegions r hNew).2 bs hBlocks
      · exact fun _ _ _ hOpen => hOpen
    refine (ihRest (.ops place) d₃ hAll.whole hRest (hFits.after hAll)).mono fun _ d₄ hFourth => ?_
    exact hAll.trans hFourth fun _ _ _ hOpen => hOpen

/- A region, and the regions behind it. -/
theorem region_returning {inner : Text .blocks}
    (ihInner : Returning s records inner) (ihRest : Returning s records rest) :
    Returning s records (.region () inner rest) := by
  intro spot d hWhole hFine hFits
  cases spot with
  | regions ids =>
    cases ids with
    | nil =>
      exact .pure (.refl hWhole)
    | cons r ids =>
      rcases hFits r (.head _) with ⟨hOuter, bs, hBlocks⟩
      refine .bind (inRegion_returns hWhole hBlocks hOuter ?_) ?_
      · intro d₁ hWhole₁ hOpens
        refine (ihInner .blocks d₁ hWhole₁ hFine.1 trivial).mono
          fun _ d₂ hReaches => hReaches.widen ?_ hWhole₁
        intro c _ _ hOpen
        exact Option.some.inj (hOpen.symm.trans hOpens)
      · intro _ d₁ hFirst
        have hWide : d.Reaches s False (· ∈ r :: ids) d₁ := hFirst.widen
            (fun c _ _ hSame => hSame ▸ List.mem_cons_self) hWhole
        have hLater : Spot.Fits d (.regions ids) :=
          fun c hMember => hFits c (.tail _ hMember)
        refine (ihRest (.regions ids) d₁ hFirst.whole hFine.2
          (hLater.after hFirst)).mono fun _ d₂ hSecond => ?_
        exact hWide.trans hSecond fun c _ _ hMember => .tail _ hMember

/- A block, its operations, and the blocks behind it. -/
theorem block_returning {inner : Text .ops}
    (ihInner : Returning s records inner) (ihRest : Returning s records rest) :
    Returning s records (.block h inner rest) := by
  rintro spot d hWhole ⟨hHead, hInner, hRest⟩ hFits
  cases spot with
  | blocks =>
    refine .bind (defineBlock_returns records hWhole hHead) ?_
    -- The rest is assembled in the same region.
    have hLast : ∀ d₁, d.Reaches s False d.Opens d₁ →
          Returns s (forest records rest .blocks) d₁ fun _ d' => d.Reaches s False d.Opens d' := by
      intro d₁ hFirst
      refine (ihRest .blocks d₁ hFirst.whole hRest trivial).mono
        fun _ d₂ hSecond => hFirst.trans hSecond ?_
      exact fun _ _ _ hOpen => hFirst.opens_iff.mp hOpen
    rintro (_ | b) d₁ ⟨hFirst, hPlaced⟩
    · exact hLast d₁ hFirst
    · refine .bind (ihInner (.ops (some b)) d₁ hFirst.whole hInner
        hPlaced) fun _ d₂ hSecond => hLast d₂ ?_
      exact hFirst.trans hSecond fun _ _ _ hOpen => hOpen.elim

/- Every text is assembled, with all that is nested in it. -/
theorem forest_returns (records : RecordTable) (t : Text l) : Returning s records t := by
  induction t with
  | nil =>
    intro spot d hWhole _ _
    exact .pure (.refl hWhole)
  | op h inner rest ihInner ihRest => exact op_returning ihInner ihRest
  | region _ inner rest ihInner ihRest => exact region_returning ihInner ihRest
  | block h inner rest ihInner ihRest => exact block_returning ihInner ihRest

/- An item of the module level is assembled. -/
theorem top_returns (records : RecordTable) {i : Item} (hWhole : d.Whole s)
    (hFine : i.text.Fine s) : Returns s (top records i) d fun _ d' => d'.Whole s := by
  cases i with
  | error span => exact .pure hWhole
  | operation =>
    refine .bind_ok (x := modify _) rfl ?_
    have hStart : { d with values := [], forward := [] : Draft }.Whole s := { hWhole with
        values := by simp
        forward := by simp
        waiting := List.nodup_nil }
    rw [operation_eq_forest]
    refine .bind (forest_returns records _ (.ops none) _ hStart hFine (by simp [Spot.Fits])) ?_
    intro _ d₁ hReaches
    have hEnd : { d₁ with forward := [] : Draft }.Whole s := { hReaches.whole with
        forward := by simp
        waiting := List.nodup_nil }
    refine (errors_return hEnd ?_).mono fun _ d₂
      (hLast : Draft.Reaches s True Module.NoRegion _ d₂) => hLast.whole
    intro e hMember
    exact (hReaches.whole.forward e (mem_sortedByName.mp hMember)).1

end Assemble

end FortranIR
