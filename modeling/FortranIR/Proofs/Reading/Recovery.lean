import FortranIR.Proofs.Reading.Grammar

/-
  This file follows a reader through blocks and operations, and
  through the text that it skips behind an error.

  Recovery skips at least one lexeme if the reader has not gone
  on before the error: the current token begins where recovery
  does, so it is not in a new line. It comes to an end if no
  region stays open, since the depth is zero at the end of the
  text then.

  Main declarations:
    * `Item.Fine`
    * `Parse.first_ends`
-/

namespace FortranIR

variable {s : Setting} {r : Reader}

/- The names in an item can be shown, and it is no function with a mark. -/
structure Item.Fine (s : Setting) (i : Item) : Prop where
  text : i.text.Fine s
  heads : ∀ h ∈ i.text.opRoots, h.2.Unmarked

theorem Item.fine_error (s : Setting) (span : Span) : Item.Fine s (.error span) := by
  constructor <;> simp [Item.text, Text.ofItems, Text.Fine, Forest.opRoots]

theorem Text.fine_ofItems (hItems : ∀ i ∈ is, i.Fine s) : (Text.ofItems is).Fine s := by
  induction is with
  | nil => simp [Text.ofItems, Text.Fine]
  | cons i is ih =>
    rw [List.forall_mem_cons] at hItems
    have hRest := ih hItems.2
    have hFirst := hItems.1.text
    cases i with
    | error span => simpa [Text.ofItems] using hRest
    | operation =>
      rw [Item.text, Text.ofItems] at hFirst
      rw [Text.ofItems]
      rcases hFirst with ⟨hNames, hResults, hFlat, hInner, -⟩
      exact ⟨hNames, hResults, hFlat, hInner, hRest⟩

theorem RegionText.fine_cons (hHead : ∀ span ∈ h.spans, s.Shows span) (hItems : ∀ i ∈ is, i.Fine s)
    (hRest : RegionText.Fine s bs) : RegionText.Fine s (⟨h, is⟩ :: bs) := by
  rw [RegionText.Fine, Text.ofBlocks]
  exact ⟨hHead, Text.fine_ofItems hItems, hRest⟩

theorem Text.fine_ofRegions (hRegions : ∀ bs ∈ rs, RegionText.Fine s bs) :
    (Text.ofRegions rs).Fine s := by
  induction rs with
  | nil => simp [Text.ofRegions, Text.Fine]
  | cons bs rs ih =>
    rw [List.forall_mem_cons] at hRegions
    rw [Text.ofRegions]
    exact ⟨hRegions.1, ih hRegions.2⟩

namespace Parse

----
-- Recovery
----

/-
  Recovery skips the current token, if there is more behind it
  and it does not stop.
-/
theorem recover_skips (fuel : Nat) (skipped : Span)
    (hSound : r.Sound s) (hLexemes : r.lexemes = x :: rest)
    (hSkip : ¬ (depth = 0 && stopsAt top last r.current) = true)
    (hClosed : s.closed → depthAhead depth r.current.kind r.lexemes = 0)
    (hRest : ∀ r' : Reader, r'.Sound s → r'.lexemes = rest → (s.closed →
          depthAhead (depthAfter depth r.current.kind) r'.current.kind r'.lexemes = 0) →
        Ends s r' (rest.length + 1) (Item.Fine s)
          (recover top fuel (depthAfter depth r.current.kind)
            r.current.span (skipped.extendTo r.current.span) r')) :
    Ends s r r.lexemes.length (Item.Fine s) (recover top (fuel + 1) depth last skipped r) := by
  have hUnfold : recover top (fuel + 1) depth last skipped r = (nextAfterMistake >>= fun _ =>
          recover top fuel (depthAfter depth r.current.kind) r.current.span
            (skipped.extendTo r.current.span)) r := by
    rw [recover, bind_of_ok (x := token) rfl rfl, if_neg hSkip]
  rw [hLexemes] at hClosed
  rw [hUnfold, hLexemes]
  rcases next_cases (hSound.head hLexemes) hSound.source hLexemes
    with ⟨r', hRun, hHidden⟩ | ⟨l, hSame, hRun⟩
  · rw [bind_of_error (x := nextAfterMistake) (by rw [nextAfterMistake, hRun])]
    exact .inr ⟨rfl, hHidden⟩
  · cases x with
    | token t =>
      rw [bind_of_ok (x := nextAfterMistake) (by rw [nextAfterMistake, hRun, taken]) rfl]
      exact .after (.of_cons hLexemes hSame) (hRest _
        (sound_behind hSound hLexemes (.inl rfl) hSame.source) rfl hClosed)
    | mistake span message =>
      rw [bind_of_ok (x := nextAfterMistake) (by rw [nextAfterMistake, hRun, taken]) rfl]
      exact .after (.of_cons hLexemes hSame) (hRest _ (sound_behind hSound hLexemes
          (.inr ⟨rfl, span, message, rfl⟩) hSame.source) rfl hClosed)
    | unreadable =>
      rw [bind_of_error (x := nextAfterMistake) (by rw [nextAfterMistake, hRun, taken])]
      refine ⟨hLexemes ▸ List.suffix_cons _ _, ?_⟩
      rw [hLexemes]
      exact Nat.lt_succ_self _

/- At the end of the text, recovery goes nowhere. -/
theorem nextAfterMistake_nil (hNone : r.lexemes = []) : nextAfterMistake r =
      .ok () { r with last := r.current.span } := by
  unfold nextAfterMistake next
  simp only [modify_bind_run, get_bind_run, hNone]
  rfl

theorem recover_ends (hSound : r.Sound s) (hClosed :
      s.closed → depthAhead depth r.current.kind r.lexemes = 0)
    (hFuel : s.closed → r.lexemes.length < fuel) :
    Ends s r (r.lexemes.length + 1) (Item.Fine s) (recover top fuel depth last skipped r) := by
  induction fuel generalizing r depth last skipped with
  | zero =>
    refine .inl ⟨rfl, fun hAll => ?_⟩
    exact Nat.not_lt_zero _ (hFuel hAll)
  | succ fuel ih =>
    by_cases hStop : (depth = 0 && stopsAt top last r.current) = true
    · rw [recover, bind_of_ok (x := token) rfl rfl, if_pos hStop]
      exact ⟨hSound, .refl r, Nat.lt_succ_self _, Item.fine_error s skipped⟩
    · cases hLexemes : r.lexemes with
      | cons x rest =>
        have hSkips := recover_skips fuel skipped hSound hLexemes hStop hClosed
            fun r' hSound' hSame hClosed' => by
              rw [← hSame]
              refine ih hSound' hClosed' fun hAll => ?_
              have hLess := hFuel hAll
              rw [hLexemes, List.length_cons] at hLess
              rw [hSame]
              omega
        rw [hLexemes] at hSkips
        exact hSkips.mono (Nat.le_succ _) fun _ hFine => hFine
      | nil =>
        -- The depth is not zero, so some region stays open.
        have hEnd : r.current.kind = .finish := by
          have hEnds := hSound.ends
          rwa [hLexemes] at hEnds
        have hOpen : ¬ s.closed := by
          intro hAll
          have hZero := hClosed hAll
          rw [hLexemes, hEnd] at hZero
          have hDepth : depth = 0 := hZero
          apply hStop
          simp [hDepth, stopsAt, hEnd]
        have hSound' : { r with last := r.current.span : Reader }.Sound s :=
          { hSound with last := hSound.current.shows }
        have hStays : r.Before { r with last := r.current.span } :=
          ⟨List.suffix_refl _, fun _ => rfl, .refl⟩
        rw [recover, bind_of_ok (x := token) rfl rfl, if_neg hStop,
          bind_of_ok (nextAfterMistake_nil hLexemes) rfl, ← hLexemes]
        exact .after hStays (ih hSound' (fun hAll => absurd hAll hOpen)
          fun hAll => absurd hAll hOpen)

theorem recovering_eq (top : Bool) (reading : Parse Item) (r : Reader) : recovering top reading r =
      match reading r with
      | .error .reported after =>
        recover top (after.lexemes.length + 2) 0 r.current.span r.current.span after
      | outcome => outcome := rfl

/- An item takes a lexeme, also if there is an error in it. -/
theorem recovering_does (hReading : Does s p m (m - 1) reading (Item.Fine s))
    (hToken : ∀ t, p t → t.kind ≠ .finish ∧ (top = false → t.kind ≠ .other '\x7d')) :
    Does s p m (m - 1) (recovering top reading) (Item.Fine s) := by
  intro r hSound hAt hLess
  have hEnds := hReading r hSound hAt hLess
  rw [recovering_eq]
  split
  · rename_i after hRun
    rw [hRun] at hEnds
    rcases hEnds with ⟨hSound', hBefore⟩
    have hFuel : s.closed → after.lexemes.length < after.lexemes.length + 2 := fun _ => by omega
    apply Ends.after hBefore
    rcases Nat.lt_or_eq_of_le hBefore.length_le with hTaken | hSame
    · exact (recover_ends hSound' hSound'.closed hFuel).mono (by omega) fun _ hFine => hFine
    · -- The reader stands where it began, so it can not stop.
      have hCurrent := hBefore.same hSame
      have hKind := hToken r.current hAt
      have hStays : ¬ (0 = 0 && stopsAt top r.current.span after.current) = true := by
        have hLine := hSound.current.line
        simp only [hCurrent, stopsAt, hLine]
        cases top with
        | true => simp [hKind.1]
        | false => simp [hKind.1, hKind.2 rfl]
      cases hLexemes : after.lexemes with
      | nil =>
        have hEnd := hSound'.ends
        rw [hLexemes, hCurrent] at hEnd
        exact absurd hEnd hKind.1
      | cons x rest =>
        have hSkips := recover_skips (rest.length + 2) r.current.span hSound'
            hLexemes hStays hSound'.closed fun r' hSound'' hRest hClosed => by
              rw [← hRest]
              exact recover_ends hSound'' hClosed fun _ => by omega
        exact hSkips.mono (by omega) fun _ hFine => hFine
  · exact hEnds

----
-- Blocks
----

theorem blockArg_does (hFuel : m ≤ fuel) :
    Does s p m m (blockArg fuel) fun x => s.Shows x.span := by
  apply Does.bind name_does
  intro n hName
  apply Does.char
  apply Does.bind (type_does (by omega))
  exact fun t _ => .pure hName (by omega)

section Blocks

variable (hOp : ∀ k ≤ m, Does s Anywhere k (k - 1) op (Item.Fine s)) (hFuel : m ≤ fuel)

include hOp hFuel

theorem blockItems_does : Does s p m m (blockItems op fuel) (∀ i ∈ ·, Item.Fine s i) := by
  induction fuel generalizing m p with
  | zero =>
    intro r _ _ hLess
    omega
  | succ fuel ih =>
    apply Does.kind
    intro t _
    apply Does.ite
    · exact fun _ => .pure nofun .refl
    · intro hGoes
      have hToken : ∀ t', t' = t → t'.kind ≠ .finish ∧
            (false = false → t'.kind ≠ .other '\x7d') := by
        rintro _ rfl
        refine ⟨fun hEnd => hGoes ?_, fun _ hEnd => hGoes ?_⟩
        · rw [hEnd]
          rfl
        · rw [hEnd]
          rfl
      have hReading : Does s (· = t) m (m - 1) op (Item.Fine s) :=
        (hOp m .refl).weaken .refl .refl
      apply Does.bind (recovering_does hReading hToken)
      intro i hItem
      apply Does.bind (ih (fun k hLess => hOp k (by omega)) (by omega))
      intro is hItems
      exact .pure (List.forall_mem_cons.mpr ⟨hItem, hItems⟩) (by omega)

/- A block takes its label. -/
theorem block_does :
    Does s p m (m - 1) (block fuel op) fun b =>
      (∀ span ∈ b.head.spans, s.Shows span) ∧ ∀ i ∈ b.items, Item.Fine s i := by
  apply Does.span
  intro place hPlace
  apply Does.bind (item_does "block header" rfl)
  intro label _
  have hRest : ∀ args : List TypedName, (∀ x ∈ args, s.Shows x.span) →
        Does s Anywhere (m - 1) (m - 1) (do
            expectChar ':'
            let whole := place.extendTo (← get).last
            let items ← blockItems op fuel
            return ({
              head := { span := whole, name := label, args }
              items } : BlockText Item)) fun b =>
            (∀ span ∈ b.head.spans, s.Shows span) ∧ ∀ i ∈ b.items, Item.Fine s i := by
    intro args hArgs
    apply Does.char
    apply Does.last
    intro r hLast
    apply Does.bind (blockItems_does (fun k hLess => hOp k (by omega)) (by omega))
    intro items hItems
    refine .pure ⟨?_, hItems⟩ (by omega)
    simp only [BlockHead.spans, List.forall_mem_cons, List.forall_mem_map]
    exact ⟨hPlace.extendTo hLast, hArgs⟩
  apply Does.isAt
  · apply Does.bind (list_does (fun k hLess => blockArg_does (by omega)) (by omega))
    exact fun args hArgs => (hRest args hArgs).weaken (by omega) .refl
  · exact .bind (.pure nofun .refl) hRest

theorem blocks_does (hCount : m ≤ count) :
    Does s p m m (blocks fuel op count) (RegionText.Fine s) := by
  induction count generalizing m p with
  | zero =>
    intro r _ _ hLess
    omega
  | succ count ih =>
    apply Does.kind
    intro t _
    apply Does.ite
    · exact fun _ => .pure (RegionText.fine_nil s) .refl
    · intro _
      apply Does.bind (block_does hOp hFuel)
      rintro ⟨head, items⟩ ⟨hHead, hItems⟩
      apply Does.bind (ih (fun k hLess => hOp k (by omega)) (by omega) (by omega))
      intro bs hBlocks
      exact .pure (RegionText.fine_cons hHead hItems hBlocks) (by omega)

end Blocks

theorem region_does (hOp : ∀ k ≤ m - 1, Does s Anywhere k (k - 1) op (Item.Fine s))
    (hFuel : m - 1 ≤ fuel) : Does s p m m (region fuel op) (RegionText.Fine s) := by
  apply Does.char
  apply Does.bind (blocks_does hOp hFuel hFuel)
  intro bs hBlocks
  exact .char (.pure hBlocks (by omega))

----
-- Operations
----

theorem resultNames_does (hFuel : m ≤ fuel) :
    Does s p m m (resultNames fuel) (∀ n ∈ ·, s.Shows n.span) := by
  apply Does.kind
  intro t _
  split
  · apply Does.bind (separated_does name_keeps hFuel)
    intro names hNames
    exact .char (.pure hNames (by omega))
  · exact .pure nofun .refl

theorem opKind_does : Does s p m (m - 1) opKind Anyhow := by
  apply Does.span
  intro place hPlace
  apply Does.bind (item_does "operation name" rfl)
  intro word _
  split
  · exact .pure trivial .refl
  · exact fail_does _ hPlace

/-
  An operation takes its name. The operations nested in it have
  less fuel, and stand behind a brace.
-/
theorem operation_does (hFuel : m + 1 ≤ fuel) :
    Does s p m (m - 1) (operation fuel) (Item.Fine s) := by
  induction fuel generalizing m p with
  | zero => omega
  | succ fuel ih =>
    apply Does.of_pos
    intro hSome
    apply Does.span
    intro place hPlace
    apply Does.bind (resultNames_does (by omega))
    intro results hResults
    apply Does.bind opKind_does
    intro k _
    have hRegion : ∀ j ≤ m - 1, Does s Anywhere j j (region fuel (operation fuel))
            (RegionText.Fine s) :=
      fun j hLess => region_does (fun i hSmall => ih (by omega)) (by omega)
    apply Does.bind (opText_does hRegion k (by omega))
    intro text hText
    apply Does.last
    intro r hLast
    apply Does.ite
    · exact fun _ => fail_bind_does _ (hPlace.extendTo hLast)
    · intro _
      refine .pure ⟨?_, ?_⟩ .refl
      · rw [Item.text, Text.ofItems]
        refine ⟨?_, hResults, ?_, Text.fine_ofRegions hText.regions, by simp [Text.ofItems, Text.Fine]⟩
        · simp only [OpHead.spans, List.forall_mem_append, List.forall_mem_map]
          exact ⟨hText.operands, hText.successors⟩
        · rw [Assemble.regionRoots_ofRegions]
          exact hText.flat
      · simp only [Item.text, Text.ofItems, Forest.opRoots, List.forall_mem_singleton]
        exact hText.unmarked

----
-- Items of the module level
----

theorem nextItem_finish (hEnd : r.current.kind = .finish) :
    nextItem r = .ok (.error r.current.span) r := by
  unfold nextItem
  rw [bind_of_ok (x := token) rfl rfl, if_pos hEnd]
  rfl

/- Before the end of the text, an item takes a lexeme. -/
theorem nextItem_ends (hSound : r.Sound s) (hMore : r.current.kind ≠ .finish) :
    Ends s r r.lexemes.length (fun found => ∃ i, found = .ok i ∧ i.Fine s) (nextItem r) := by
  have hReading : Does s (fun t => t.kind ≠ .finish) (r.lexemes.length + 1)
        (r.lexemes.length + 1 - 1) (operation (r.lexemes.length + 4)) (Item.Fine s) :=
    operation_does (by omega)
  have hDoes : Does s (fun t => t.kind ≠ .finish) (r.lexemes.length + 1) r.lexemes.length (do
          let i ← recovering true (operation (r.lexemes.length + 4))
          return Except.ok i) (fun found : Except Span Item => ∃ i, found = .ok i ∧ i.Fine s) := by
    have hToken : ∀ t : Token, t.kind ≠ .finish → t.kind ≠ .finish ∧
          (true = false → t.kind ≠ .other '\x7d') := fun t hKind => ⟨hKind, nofun⟩
    apply Does.bind (recovering_does hReading hToken)
    exact fun i hItem => .pure ⟨i, rfl, hItem⟩ .refl
  unfold nextItem
  rw [bind_of_ok (x := token) rfl rfl, if_neg hMore]
  exact hDoes r hSound hMore (Nat.lt_succ_self _)

end Parse

----
-- The first token
----

/- A reader before the first token of an input. -/
structure Reader.Starting (s : Setting) (r : Reader) : Prop where
  current : r.current = {}
  last : s.Shows r.last
  lexemes : ∀ x ∈ r.lexemes, x.Fine s
  ends : ∀ k, k ≠ .finish → EndsBehind k r.lexemes
  closed : s.closed → depthAhead 0 .finish r.lexemes = 0
  source : s.shown → r.log.source = s.source

namespace Parse

/- No position stands before the start of a line. -/
theorem shows_start (s : Setting) : s.Shows {} := by
  intro _ text _
  exact ⟨⟨0, Nat.zero_le _, by simp [byteLength]⟩, ⟨0, Nat.zero_le _, by simp [byteLength]⟩⟩

theorem first_eq (fuel : Nat) (r : Reader) : first (fuel + 1) r = match next r with
      | .error .reported after => first fuel after
      | .error .unreadable after => .ok () after
      | outcome => outcome := rfl

/- Mistakes before the first token are passed. -/
theorem first_ends (hStart : r.Starting s) (hFuel : r.lexemes.length < fuel) :
    (∃ r', first fuel r = .ok () r' ∧ r'.Sound s ∧ r'.lexemes <:+ r.lexemes) ∨
    ∃ r', first fuel r = .error (.fault .charBoundary) r' ∧ ¬ s.shown := by
  induction fuel generalizing r with
  | zero => omega
  | succ fuel ih =>
    have hEnds := hStart.ends
    have hClosed := hStart.closed
    have hLexemes := hStart.lexemes
    have hLast : s.Shows r.current.span := by
      rw [hStart.current]
      exact shows_start s
    cases hAhead : r.lexemes with
    | nil =>
      rw [hAhead] at hEnds
      exact absurd (hEnds .arrow nofun) nofun
    | cons x rest =>
      rw [hAhead] at hEnds hClosed hLexemes hFuel
      rw [List.forall_mem_cons] at hLexemes
      rw [List.length_cons] at hFuel
      rcases next_cases hLexemes.1 hStart.source hAhead with ⟨r', hRun, hHidden⟩ | ⟨l, hSame, hRun⟩
      · refine .inr ⟨r', ?_, hHidden⟩
        rw [first_eq, hRun]
      · have hSource : s.shown → l.source = s.source :=
          fun hShown => hSame.source.trans (hStart.source hShown)
        cases x with
        | token t =>
          refine .inl ⟨_, by rw [first_eq, hRun, taken], ?_, List.suffix_cons _ _⟩
          exact
            { current := hLexemes.1
              last := hLast
              lexemes := hLexemes.2
              ends := (hEnds .arrow nofun).2
              closed := hClosed
              source := hSource }
        | mistake =>
          have hNext :
              { r with
                lexemes := rest
                last := r.current.span
                log := l : Reader }.Starting s :=
            { current := hStart.current
              last := hLast
              lexemes := hLexemes.2
              ends := fun k hMore => (hEnds k hMore).2
              closed := hClosed
              source := hSource }
          have hRest : first (fuel + 1) r = first fuel
                  { r with
                    lexemes := rest
                    last := r.current.span
                    log := l } := by rw [first_eq, hRun, taken]
          rw [hRest]
          rcases ih hNext (by change rest.length < fuel; omega) with
            ⟨r', hFirst, hSound, hSuffix⟩ | hCut
          · exact .inl ⟨r', hFirst, hSound, hSuffix.trans (List.suffix_cons _ _)⟩
          · exact .inr hCut
        | unreadable =>
          refine .inl ⟨_, by rw [first_eq, hRun, taken], ?_, List.suffix_cons _ _⟩
          have hNone : rest = [] := (hEnds .arrow nofun).2
          exact
            { current := by
                rw [hStart.current]
                exact ⟨shows_start s, rfl⟩
              last := hLast
              lexemes := hLexemes.2
              ends := by
                rw [hStart.current, hNone]
                rfl
              closed := by
                rw [hStart.current, hNone]
                exact fun _ => rfl
              source := hSource }

end Parse

end FortranIR
