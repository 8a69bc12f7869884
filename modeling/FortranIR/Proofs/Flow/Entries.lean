import FortranIR.Proofs.Flow.Placement
import FortranIR.Proofs.Storage.Intervals

/-
  This file proves where the entry points of a subprogram branch
  to, and what they have in common.

  What is executed first is guessed from the first evaluation,
  and begins a block. Dummy arguments are counted over all entry
  points, and the largest result is kept on the way.

  Main declarations:
    * `Evaluation.leads`
    * `FlowTree.first_beginsBlock`
    * `Scope.IsPrimary`
    * `FlowTree.entries_combined`
-/

namespace FortranIR

open Evaluation FunctionUnit

variable {u : FunctionUnit} {options : FlowOptions} {e : Evaluation} {id first : EvalId}
variable {parent : UnitParent} {source : SubprogramHead}

/-
  The first evaluation shows what is executed first. It is
  executed or an entry statement, or the first one in it is
  executed.
-/
def Evaluation.leads (es : List Evaluation) : Bool := (es[0]?).any fun e => match e.children with
    | [] => e.isFollowed
    | child :: _ => executableAt es child

theorem Evaluation.leads_map_laid (es : List Evaluation) : leads (es.map laid) = leads es := by
  simp only [leads, executableAt, List.getElem?_map, Option.any_map]
  rfl

theorem Evaluation.isExecutable_of_entry (hEntry : e.entrySymbol?.isSome = true) :
    e.isExecutable = false := by
  unfold entrySymbol? at hEntry
  split at hEntry
  · rename_i hNode
    simp [isExecutable, isAction, isGuard, action?, guard?, hNode]
  · cases hEntry

namespace FunctionUnit

/- An executable evaluation without one before it is the first one. -/
theorem Threaded.head?_executables (hThreaded : u.Threaded) (hIs : executableAt u.evals id = true)
    (hNone : ∀ k < id, executableAt u.evals k = false) : u.executables.head? = some id := by
  rcases (Option.any_eq_true _ _).mp hIs with ⟨e, hEval, -⟩
  have hIn := List.mem_range.mpr (List.getElem?_eq_some_iff.mp hEval).1
  rw [executables_eq hThreaded.walk, executableIds, List.head?_filter, List.find?_range_eq_some]
  exact ⟨hIs, hIn, fun k hBelow => by simp [hNone k hBelow]⟩

/- A walk begins with the first evaluation and the first one in it. -/
theorem Threaded.first_eq (hThreaded : u.Threaded) (hTop : u.outline.map Outline.root = first :: rest)
    (hEval : u.evals[first]? = some e) :
    first = 0 ∧ ∀ child others, e.children = child :: others → child = 1 := by
  have hAt : ∀ k x : Nat, u.walk[k]? = some x → x = k := by
    intro k x hMet
    rw [hThreaded.walk] at hMet
    rcases List.getElem?_eq_some_iff.mp hMet with ⟨_, rfl⟩
    exact List.getElem_range _
  refine ⟨hAt 0 first (by rw [FunctionUnit.walk, hTop]; rfl), fun child others hChildren => ?_⟩
  refine hAt 1 child ?_
  rw [FunctionUnit.walk, hTop, walkWithin, children, hEval, Option.elim_some, hChildren]
  cases hEvals : u.evals with
  | nil =>
    rw [hEvals] at hEval
    cases hEval
  | cons e es => rfl

/- The entry points branch to what is executed first. -/
theorem firstEvaluation_executables (hAlike : (ofHead parent source).Alike u)
    (hLeads : leads u.evals = true) (hFirst : u.firstEvaluation = .ok id) :
    u.executables.head? = some id := by
  have hThreaded := (ofHead_threaded parent source).of_alike hAlike
  rcases bind_eq_ok_iff.mp hFirst with ⟨first, hEntry, hRest⟩
  rcases bind_eq_ok_iff.mp hRest with ⟨e, hEval, hLast⟩
  rw [entry, orElse_eq_ok_iff, ← List.head?_eq_getElem?, List.head?_eq_some_iff] at hEntry
  rw [eval_eq_ok_iff] at hEval
  rcases hEntry with ⟨rest, hTop⟩
  rcases hThreaded.first_eq hTop hEval with ⟨rfl, hChild⟩
  rw [leads, hEval, Option.any_some] at hLeads
  have hZero : executableAt u.evals 0 = e.isExecutable := by rw [executableAt, hEval, Option.any_some]
  cases hChildren : e.children with
  | cons child others =>
    rw [hChildren] at hLast hLeads
    cases hLast
    cases hChild id others hChildren
    refine hThreaded.head?_executables hLeads fun k hBelow => ?_
    rw [Nat.lt_one_iff.mp hBelow, hZero]
    rcases hAlike.getElem? hEval with ⟨e₀, hEval₀, hLaid⟩
    rw [← eq_of_laid hLaid Evaluation.children] at hChildren
    rw [← eq_of_laid hLaid isExecutable, Bool.eq_false_iff]
    intro hExecuted
    rw [ofHead_leaf hEval₀ (isStatement_of_isExecutable hExecuted)] at hChildren
    cases hChildren
  | nil =>
    rw [hChildren] at hLast hLeads
    dsimp only at hLast hLeads
    split at hLast
    · rename_i hEntry
      have hNot := hZero.trans (isExecutable_of_entry hEntry)
      rw [next_eq_ok_iff, hThreaded.next?_eq hEval, if_pos hLeads, executables_eq hThreaded.walk,
        executableIds, List.find?_filter, List.find?_range_eq_some] at hLast
      simp only [decide_eq_true_eq, Bool.not_eq_true', decide_eq_false_iff_not] at hLast
      refine hThreaded.head?_executables hLast.1.1 fun k hBelow => ?_
      rcases Nat.eq_zero_or_pos k with rfl | hLater
      · exact hNot
      · exact Bool.eq_false_iff.mpr fun hIs => hLast.2.2 k hBelow ⟨hIs, hLater⟩
    · rename_i hOther
      cases hLast
      refine hThreaded.head?_executables ?_ (by simp)
      simpa [hZero, isFollowed, hOther] using hLeads

end FunctionUnit

----
-- Trees
----

/-
  If the first evaluation of a subprogram with several entry
  points shows what is executed first, the first executable
  statement begins a block.
-/
theorem FlowTree.first_beginsBlock {units : List ProgramUnit} {tree : FlowTree}
    (hTree : ofProgram options units = .ok tree) (hUnit : u ∈ tree.functionUnits)
    (hEntries : 1 < u.entries.length) (hLeads : Evaluation.leads u.evals = true) :
    ∃ id e, u.executables.head? = some id ∧ u.evals[id]? = some e ∧ e.place = 1 ∧
      e.isNewBlock = true := by
  rcases ofProgram_complete hTree hUnit with ⟨parent, head, hComplete⟩
  have hAlike := (complete_grows hComplete).alike
  have hThreaded := (ofHead_threaded parent head).of_alike hAlike
  rcases bind_eq_ok_iff.mp hComplete with ⟨analyzed, hAnalyze, hRest⟩
  rcases bind_eq_ok_iff.mp hRest with ⟨entered, hEnter, hLast⟩
  rcases bind_eq_ok_iff.mp hLast with ⟨storage, -, hDone⟩
  cases hDone
  unfold withEntries at hEnter
  split at hEnter
  · rename_i hOne
    cases hEnter
    exact absurd hOne (Nat.ne_of_gt hEntries)
  · rcases bind_eq_ok_iff.mp hEnter with ⟨id, hFirst, hRest'⟩
    rcases bind_eq_ok_iff.mp hRest' with ⟨points, -, hDone'⟩
    cases hDone'
    have hBefore := (analyze_grows hAnalyze).alike
    have hSame := hBefore.symm.trans hAlike
    rw [← leads_map_laid, hSame.evals, leads_map_laid] at hLeads
    have hHead := firstEvaluation_executables hBefore hLeads hFirst
    have hThreaded' := (ofHead_threaded parent head).of_alike hBefore
    rcases hThreaded'.chain 0 id (List.head?_eq_getElem?.symm.trans hHead) with ⟨e, hEval, hPlace, -⟩
    refine ⟨id, { e with isNewBlock := true }, ?_, by simp [hEval], hPlace, rfl⟩
    rw [← hHead, executables_eq hThreaded.walk,
      executables_eq hThreaded'.walk]
    exact congrArg List.head? (executableIds_congr (hSame.map_eq fun _ => rfl))

/- A subprogram with a second entry point at its end. -/
def entered (body : List Node) : List ProgramUnit :=
  [.subprogram (.mk
    { kind := .subroutine
      name := some "s"
      scope :=
        { symbols :=
            [{ name := "s", details := .subprogram {} },
              { name := "t", details := .subprogram {} }] }
      body := body ++ [.nonExecutable ⟨none, "entry t", .entry 1⟩] } [])]

/- The first action is in a directive. -/
theorem FlowTree.first_beginsBlock_directive : ∃ tree u id e,
      ofProgram {} (entered [.directive "simd" [.action ⟨none, "x = 1", .assignment⟩]]) = .ok tree ∧
      u ∈ tree.functionUnits ∧ u.executables.head? = some id ∧ u.evals[id]? = some e ∧
      e.place = 1 ∧ e.isNewBlock = true := by
  have hFound : (firstUnit? {} (entered [.directive "simd"
      [.action ⟨none, "x = 1", .assignment⟩]])).any (fun u =>
        1 < u.entries.length && Evaluation.leads u.evals) = true := by cbv
  rcases exists_unit ((Option.any_eq_true _ _).mp hFound) with ⟨tree, u, hOk, hMember, hChecks⟩
  rw [Bool.and_eq_true, decide_eq_true_eq] at hChecks
  rcases first_beginsBlock hOk hMember hChecks.1 hChecks.2 with ⟨id, e, hHead, hEval, hBegins⟩
  exact ⟨tree, u, id, e, hOk, hMember, hHead, hEval, hBegins⟩

/- Data before the first action begins a block, but not the action. -/
theorem FlowTree.first_continuesBlock : ∃ tree u,
      ofProgram {} (entered [.nonExecutable ⟨none, "data x /1/", .data⟩,
        .action ⟨none, "x = 1", .assignment⟩]) = .ok tree ∧
      u ∈ tree.functionUnits ∧ (1 < u.entries.length && u.executables.head? == some 1 &&
        (u.evals[1]?).any fun e => e.place == 1 && !e.isNewBlock) = true :=
  exists_unit ((Option.any_eq_true _ _).mp (by cbv))

----
-- Declared entry points
----

variable {scope : Scope} {points : List SubprogramDetails} {d : SubprogramDetails}
variable {entries : List EntryPoint} {best : SymbolId × Nat} {arg : SymbolId}

/- The symbol of an entry point is a subprogram of the scope. -/
def Scope.Declares (scope : Scope) (e : Option SymbolId × Option EvalId)
    (d : SubprogramDetails) : Prop :=
  ∃ symbol ∈ e.1, ∃ s ∈ scope.symbols[symbol]?, s.details = .subprogram d

/- The result of a subprogram with its size. -/
def Scope.sizedResult (scope : Scope) (d : SubprogramDetails) : Option (SymbolId × Nat) :=
  d.result.map fun r => (r, (scope.symbols[r]?).elim 0 Symbol.size)

/- What a declaration says of an entry point. -/
def Scope.entryPoint (scope : Scope) (d : SubprogramDetails) : EntryPoint :=
  ⟨d.args.reduceOption, scope.sizedResult d⟩

/- The first one of the largest results. -/
def Scope.IsPrimary (scope : Scope) (points : List SubprogramDetails) (best : SymbolId × Nat) :
    Prop :=
  ∃ before d after, points = before ++ d :: after ∧ scope.sizedResult d = some best ∧
    (∀ d' ∈ before, ∀ other ∈ scope.sizedResult d', other.2 < best.2) ∧
    ∀ d' ∈ after, ∀ other ∈ scope.sizedResult d', other.2 ≤ best.2

theorem Scope.IsPrimary.le (hPrimary : scope.IsPrimary points best) :
    ∀ d ∈ points, ∀ other ∈ scope.sizedResult d, other.2 ≤ best.2 := by
  rcases hPrimary with ⟨before, d, after, rfl, hIs, hLess, hLe⟩
  intro d' hIn other hOther
  rcases List.mem_append.mp hIn with hBefore | hLater
  · exact Nat.le_of_lt (hLess d' hBefore other hOther)
  · rcases List.mem_cons.mp hLater with rfl | hAfter
    · rw [Option.mem_unique hOther hIs]
    · exact hLe d' hAfter other hOther

theorem Scope.IsPrimary.append (hPrimary : scope.IsPrimary points best)
    (hLast : ∀ other ∈ scope.sizedResult d, other.2 ≤ best.2) :
    scope.IsPrimary (points ++ [d]) best := by
  rcases hPrimary with ⟨before, d', after, rfl, hIs, hLess, hLe⟩
  refine ⟨before, d', after ++ [d], by simp, hIs, hLess, fun c hIn => ?_⟩
  rcases List.mem_append.mp hIn with hAfter | hSame
  · exact hLe c hAfter
  · exact List.mem_singleton.mp hSame ▸ hLast

namespace FunctionUnit

----
-- Arguments
----

theorem argumentCounts_sorted (entries : List EntryPoint) : Keyed.Sorted (argumentCounts entries) :=
  List.foldlRecOn _ _ List.Pairwise.nil fun _ hSorted _ _ => hSorted.insert _ _

theorem find?_argumentCounts (entries : List EntryPoint) (arg : SymbolId) :
    (argumentCounts entries).find? arg =
      if arg ∈ entries.flatMap EntryPoint.args then some ((entries.flatMap EntryPoint.args).count arg)
      else none := by
  unfold argumentCounts
  induction entries.flatMap EntryPoint.args using List.reverseRecOn with
  | nil => rfl
  | append_singleton args last ih =>
    rw [List.foldl_append, List.foldl_cons, List.foldl_nil, Keyed.adjust, Keyed.find?_insert]
    by_cases hSame : arg = last
    · subst hSame
      rw [ih]
      by_cases hIn : arg ∈ args
      · simp [hIn]
      · simp [hIn, List.count_eq_zero_of_not_mem hIn]
    · simp [hSame, ih, Ne.symm hSame]

/- An argument is counted once for each entry point that has it. -/
theorem count_args (hDistinct : ∀ e ∈ entries, e.args.Nodup) (arg : SymbolId) :
    (entries.flatMap EntryPoint.args).count arg = entries.countP fun e => arg ∈ e.args := by
  induction entries with
  | nil => rfl
  | cons e entries ih =>
    have hBoth := List.forall_mem_cons.mp hDistinct
    rw [List.flatMap_cons, List.count_append, List.countP_cons, ih hBoth.2, Nat.add_comm,
      hBoth.1.count]
    simp

theorem mem_partialArguments_iff (hDistinct : ∀ e ∈ entries, e.args.Nodup) :
    arg ∈ partialArguments entries ↔
      (∃ e ∈ entries, arg ∈ e.args) ∧ ∃ e ∈ entries, arg ∉ e.args := by
  have hCounted : ∀ n, (arg, n) ∈ argumentCounts entries ↔
      (∃ e ∈ entries, arg ∈ e.args) ∧ entries.countP (fun e => arg ∈ e.args) = n := by
    intro n
    rw [← (argumentCounts_sorted entries).find?_eq_some_iff, find?_argumentCounts,
      count_args hDistinct]
    simp
  have hMissing : entries.countP (fun e => arg ∈ e.args) < entries.length ↔
      ∃ e ∈ entries, arg ∉ e.args := by
    rw [List.countP_le_length.lt_iff_ne, Ne, List.countP_eq_length]
    simp
  rw [partialArguments, List.mem_map, ← hMissing]
  constructor
  · rintro ⟨c, hKept, rfl⟩
    rcases List.mem_filter.mp hKept with ⟨hIn, hLess⟩
    rcases (hCounted c.2).mp hIn with ⟨hSome, hCount⟩
    exact ⟨hSome, hCount ▸ of_decide_eq_true hLess⟩
  · rintro ⟨hSome, hLess⟩
    exact ⟨_, List.mem_filter.mpr ⟨(hCounted _).mpr ⟨hSome, rfl⟩, decide_eq_true hLess⟩, rfl⟩

theorem partialArguments_sorted (entries : List EntryPoint) :
    (partialArguments entries).Pairwise (· < ·) :=
  List.pairwise_map.mpr ((argumentCounts_sorted entries).filter _)

----
-- Results
----

theorem larger_ne_none (old : Option (SymbolId × Nat)) (r : SymbolId × Nat) :
    larger old r ≠ none := by
  cases old with
  | none => simp [larger]
  | some other =>
    rw [larger]
    split <;> simp

theorem foldl_larger_eq_none_iff : results.foldl larger none = none ↔ results = [] := by
  rcases List.eq_nil_or_concat results with rfl | ⟨init, r, rfl⟩
  · simp
  · rw [List.concat_eq_append, List.foldl_append]
    exact iff_of_false (larger_ne_none _ r) (by simp)

/- Each result is compared with the largest one before it. -/
theorem foldl_larger_isPrimary
    (hBest : (points.filterMap scope.sizedResult).foldl larger none = some best) :
    scope.IsPrimary points best := by
  induction points using List.reverseRecOn generalizing best with
  | nil => cases hBest
  | append_singleton points d ih =>
    rw [List.filterMap_append, List.foldl_append] at hBest
    cases hResult : scope.sizedResult d with
    | none => exact (ih (by simpa [hResult] using hBest)).append (by simp [hResult])
    | some r =>
      rw [List.filterMap_cons_some hResult, List.filterMap_nil, List.foldl_cons,
        List.foldl_nil] at hBest
      cases hOld : (points.filterMap scope.sizedResult).foldl larger none with
      | none =>
        rw [hOld] at hBest
        cases hBest
        refine ⟨points, d, [], rfl, hResult, fun d' hIn other hOther => ?_, by simp⟩
        rw [List.filterMap_eq_nil_iff.mp (foldl_larger_eq_none_iff.mp hOld) d' hIn] at hOther
        cases hOther
      | some old =>
        rw [hOld, larger] at hBest
        split at hBest
        · rename_i hGreater
          cases hBest
          refine ⟨points, d, [], rfl, hResult, fun d' hIn other hOther => ?_, by simp⟩
          exact Nat.lt_of_le_of_lt ((ih hOld).le d' hIn other hOther) hGreater
        · rename_i hNot
          cases hBest
          refine (ih hOld).append fun other hOther => ?_
          rw [Option.mem_unique hOther hResult]
          exact Nat.le_of_not_lt hNot

theorem entryPoint_eq_ok {e : Option SymbolId × Option EvalId}
    (hDeclares : scope.Declares e d) (hRun : FunctionUnit.entryPoint scope e.1 = .ok p) :
    p = scope.entryPoint d := by
  rcases hDeclares with ⟨symbol, hSymbol, s, hFound, hDetails⟩
  have hLooked : scope.symbol symbol = .ok s := orElse_eq_ok_iff.mpr hFound
  rw [FunctionUnit.entryPoint, Option.mem_def.mp hSymbol, Fault.orElse, ok_bind, hLooked, ok_bind,
    hDetails] at hRun
  rcases bind_eq_ok_iff.mp hRun with ⟨result, hResult, hDone⟩
  cases hDone
  rw [Scope.entryPoint, Scope.sizedResult]
  cases hSome : d.result with
  | none =>
    rw [hSome] at hResult
    cases hResult
    rfl
  | some r =>
    rw [hSome] at hResult
    rcases bind_eq_ok_iff.mp hResult with ⟨x, hSize, hPure⟩
    rcases bind_eq_ok_iff.mp hSize with ⟨t, hFound', hSized⟩
    cases hPure
    cases hSized
    rw [Option.map_some, orElse_eq_ok_iff.mp hFound']
    rfl

theorem entries_eq_map (hPoints : List.Forall₂ scope.Declares es points)
    (hRun : List.Forall₂ (fun e p => FunctionUnit.entryPoint scope e.1 = .ok p) es entries) :
    entries = points.map scope.entryPoint := by
  induction hPoints generalizing entries with
  | nil =>
    cases hRun
    rfl
  | cons hFirst _ ih =>
    rcases hRun with _ | ⟨hPoint, hOthers⟩
    rw [entryPoint_eq_ok hFirst hPoint, ih hOthers, List.map_cons]

/- The entry points of a unit are combined as they are declared. -/
theorem withEntries_eq_ok {u v : FunctionUnit} (hRun : u.withEntries = .ok v)
    (hSeveral : 2 ≤ u.entries.length)
    (hPoints : List.Forall₂ u.source.scope.Declares u.entries points) :
    v.partialArgs = partialArguments (points.map u.source.scope.entryPoint) ∧
      v.primaryResult = largestResult (points.map u.source.scope.entryPoint) := by
  unfold withEntries at hRun
  split at hRun
  · rename_i hOne
    exact absurd hOne (Nat.ne_of_gt hSeveral)
  · rcases bind_eq_ok_iff.mp hRun with ⟨first, -, hRest⟩
    rcases bind_eq_ok_iff.mp hRest with ⟨entries, hEntries, hDone⟩
    cases hDone
    cases entries_eq_map hPoints (mapM_eq_ok_iff.mp hEntries)
    exact ⟨rfl, rfl⟩

end FunctionUnit

----
-- Entry points in a tree
----

/-
  A subprogram with several entry points: the partial arguments
  are those that some entry point has and another one does not,
  in ascending order, and the primary result is the first one of
  the largest results.
-/
theorem FlowTree.entries_combined {units : List ProgramUnit} {tree : FlowTree}
    (hTree : ofProgram options units = .ok tree) (hUnit : u ∈ tree.functionUnits)
    (hSeveral : 2 ≤ u.entries.length)
    (hPoints : List.Forall₂ u.source.scope.Declares u.entries points)
    (hDistinct : ∀ d ∈ points, d.args.reduceOption.Nodup) :
    u.partialArgs.Pairwise (· < ·) ∧
      (∀ arg, arg ∈ u.partialArgs ↔
        (∃ d ∈ points, some arg ∈ d.args) ∧ ∃ d ∈ points, some arg ∉ d.args) ∧
      (u.primaryResult = none ↔ ∀ d ∈ points, d.result = none) ∧
      ∀ r, u.primaryResult = some r → ∃ size, u.source.scope.IsPrimary points (r, size) := by
  rcases ofProgram_complete hTree hUnit with ⟨parent, head, hComplete⟩
  have hAlike := (complete_grows hComplete).alike
  rcases bind_eq_ok_iff.mp hComplete with ⟨analyzed, hAnalyze, hRest⟩
  rcases bind_eq_ok_iff.mp hRest with ⟨entered, hEnter, hLast⟩
  rcases bind_eq_ok_iff.mp hLast with ⟨storage, -, hDone⟩
  cases hDone
  have hSame := (analyze_grows hAnalyze).alike.symm.trans hAlike
  rw [hSame.entries] at hSeveral hPoints
  rw [hSame.source] at hPoints ⊢
  rcases withEntries_eq_ok hEnter hSeveral hPoints with ⟨hArgs, hResult⟩
  refine ⟨hArgs ▸ partialArguments_sorted _, fun arg => ?_, ?_, fun r hIs => ?_⟩
  · rw [hArgs, mem_partialArguments_iff (List.forall_mem_map.mpr hDistinct)]
    simp [Scope.entryPoint, List.reduceOption_mem_iff]
  · rw [hResult]
    simp [largestResult, foldl_larger_eq_none_iff, Scope.entryPoint, Scope.sizedResult]
  · rw [hResult] at hIs
    rcases Option.map_eq_some_iff.mp hIs with ⟨best, hBest, rfl⟩
    rw [List.filterMap_map] at hBest
    exact ⟨best.2, foldl_larger_isPrimary hBest⟩

/- Two entry points with one argument in common. -/
def overlapping : SubprogramHead :=
  { kind := .function
    name := some "f"
    scope :=
      { symbols :=
          [{ name := "a", details := .misc },
            { name := "b", details := .misc },
            { name := "r", details := .misc, size := 4 },
            { name := "s", details := .misc, size := 8 },
            { name := "f", details := .subprogram ⟨[some 0, some 1], some 2⟩ },
            { name := "g", details := .subprogram ⟨[some 1, none, none], some 3⟩ }] }
    body :=
      [.action ⟨none, "r = a", .assignment⟩,
        .nonExecutable ⟨none, "entry g(b, *, *)", .entry 5⟩] }

theorem FlowTree.entries_combined_overlapping : ∃ tree u,
      ofProgram {} [.subprogram (.mk overlapping [])] = .ok tree ∧ u ∈ tree.functionUnits ∧
      u.partialArgs.Pairwise (· < ·) ∧ 0 ∈ u.partialArgs ∧ 1 ∉ u.partialArgs ∧
      u.primaryResult = some 3 := by
  have hFound : (firstUnit? {} [.subprogram (.mk overlapping [])]).any (fun u =>
      u.entries == [(some 4, none), (some 5, some 1)] && u.source.scope == overlapping.scope &&
        u.primaryResult == some 3) = true := by cbv
  rcases exists_unit ((Option.any_eq_true _ _).mp hFound) with ⟨tree, u, hOk, hMember, hChecks⟩
  simp only [Bool.and_eq_true, beq_iff_eq] at hChecks
  rcases hChecks with ⟨⟨hEntries, hScope⟩, hResult⟩
  have hPoints : List.Forall₂ u.source.scope.Declares u.entries
      [⟨[some 0, some 1], some 2⟩, ⟨[some 1, none, none], some 3⟩] := by
    rw [hEntries, hScope]
    exact .cons ⟨4, rfl, _, rfl, rfl⟩ (.cons ⟨5, rfl, _, rfl, rfl⟩ .nil)
  rcases entries_combined hOk hMember (by simp [hEntries]) hPoints (by decide) with
    ⟨hSorted, hArgs, hNone, hSome⟩
  exact ⟨tree, u, hOk, hMember, hSorted, (hArgs 0).mpr (by decide), fun hIn =>
    absurd ((hArgs 1).mp hIn) (by decide), hResult⟩

end FortranIR
