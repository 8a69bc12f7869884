import FortranIR.Proofs.Assembly.Totality
import FortranIR.Proofs.Reading.Lexemes
import FortranIR.Proofs.Reading.Recovery
import FortranIR.Reading

/-
  This file states how the reading of a module ends, whatever is
  wrong with the text.

  Reading goes on for ever only if recovery does: it waits for
  the end of a region that it has counted twice, since a mistake
  of the lexer leaves the brace before it in its place. The only
  other fault is an excerpt that begins or ends inside of a
  character.

  Main declarations:
    * `Input.Balanced`
    * `Module.read_returns`
-/

namespace FortranIR

variable {f : Fault} {records : RecordTable} {d : Draft} {input : Input}
variable {log : Log} {handles : Handles} {r : Reader}

----
-- Braces
----

/-
  The depth of nested braces behind some tokens. There is none if
  a brace closes nothing.
-/
def braceDepth? : Nat → List TokenKind → Option Nat
  | depth, [] => some depth
  | depth, k :: ks =>
    if k = .other '\x7b' then braceDepth? (depth + 1) ks
    else if k = .other '\x7d' then
      match depth with
      | 0 => none
      | depth + 1 => braceDepth? depth ks
    else braceDepth? depth ks

namespace Lexeme

/- The kind of a lexeme that is a token. -/
def kind? : Lexeme → Option TokenKind
  | token t => some t.kind
  | mistake _ _ => none
  | unreadable => none

def isMistake : Lexeme → Bool
  | mistake _ _ => true
  | _ => false

/- A lexeme begins and ends between the characters of a text. -/
def Shown (text : String) : Lexeme → Prop
  | token t => t.span.Shown text
  | mistake span _ => span.Shown text
  | unreadable => True

instance (text : String) (x : Lexeme) : Decidable (x.Shown text) := match x with
  | token t => inferInstanceAs (Decidable (t.span.Shown text))
  | mistake span _ => inferInstanceAs (Decidable (span.Shown text))
  | unreadable => inferInstanceAs (Decidable True)

end Lexeme

namespace Input

/- Every brace in the tokens is closed by one behind it. -/
def Balanced (input : Input) : Prop := braceDepth? 0 (input.lexemes.filterMap Lexeme.kind?) = some 0

/- No mistake stands directly behind an opening brace. -/
def Unbroken (input : Input) : Prop := input.lexemes.IsChain fun x y =>
    x.kind? = some (.other '\x7b') → y.isMistake = false

/- The lexemes can be shown in the text that excerpts are from. -/
def Shown (input : Input) (source : Option String) : Prop :=
  ∀ text ∈ source, ∀ x ∈ input.lexemes, x.Shown text

instance (input : Input) : Decidable input.Balanced := inferInstanceAs (Decidable (_ = _))

instance (input : Input) : Decidable input.Unbroken :=
  inferInstanceAs (Decidable (List.IsChain _ _))

end Input

/- A token changes the depth, and recovery counts no more. -/
theorem braceDepth_cons (hLow : low ≤ depth)
    (hDepth : braceDepth? depth (k :: ks) = some n) :
    ∃ after, Parse.depthAfter low k ≤ after ∧ braceDepth? after ks = some n := by
  unfold braceDepth? at hDepth
  unfold Parse.depthAfter
  split at hDepth
  · rename_i hOpen
    refine ⟨depth + 1, ?_, hDepth⟩
    rw [if_pos hOpen]
    exact Nat.succ_le_succ hLow
  · rename_i hOpen
    rw [if_neg hOpen]
    split at hDepth
    · rename_i hClose
      rw [if_pos hClose]
      split at hDepth
      · cases hDepth
      · exact ⟨_, Nat.sub_le_of_le_add hLow, hDepth⟩
    · rename_i hClose
      rw [if_neg hClose]
      exact ⟨depth, hLow, hDepth⟩

/-
  Recovery closes every region of a balanced text. A closing brace
  that it counts twice does no harm.
-/
theorem depthAhead_of_balanced (hLow : low ≤ depth) (hBalanced :
      braceDepth? depth (k :: lexemes.filterMap Lexeme.kind?) = some 0)
    (hFirst : k = .other '\x7b' → ∀ x ∈ lexemes.head?, x.isMistake = false)
    (hChain : lexemes.IsChain fun x y => x.kind? = some (.other '\x7b') → y.isMistake = false) :
    depthAhead low k lexemes = 0 := by
  induction lexemes generalizing low depth k with
  | nil =>
    rcases braceDepth_cons hLow hBalanced with ⟨after, hLess, hEnd⟩
    have hZero : after = 0 := Option.some.inj hEnd
    rw [depthAhead]
    omega
  | cons x rest ih =>
    rw [List.isChain_cons] at hChain
    cases x with
    | token t =>
      rcases braceDepth_cons hLow hBalanced with ⟨after, hLess, hEnd⟩
      refine ih hLess hEnd (fun hOpen y hNext => ?_) hChain.2
      exact hChain.1 y hNext (congrArg some hOpen)
    | mistake =>
      have hNotOpen : k ≠ .other '\x7b' := by
        intro hOpen
        exact absurd (hFirst hOpen _ rfl) nofun
      have hLess : Parse.depthAfter low k ≤ low := by
        unfold Parse.depthAfter
        rw [if_neg hNotOpen]
        split
        · exact Nat.sub_le _ _
        · exact .refl
      exact ih (hLess.trans hLow) hBalanced (fun hOpen => absurd hOpen hNotOpen) hChain.2
    | unreadable => rfl

theorem Input.Balanced.closed (hBalanced : input.Balanced) (hUnbroken : input.Unbroken) :
    depthAhead 0 .finish input.lexemes = 0 :=
  depthAhead_of_balanced (Nat.le_refl 0) hBalanced nofun hUnbroken

----
-- The start of an input
----

variable {s : Setting}

/- What is known of an input, and of the log that reports on it. -/
structure Setting.Of (s : Setting) (input : Input) (log : Log) : Prop where
  source : s.source = log.source
  shown : s.shown → input.Shown log.source
  closed : s.closed → depthAhead 0 .finish input.lexemes = 0

theorem Setting.Of.starting (records : RecordTable) (hOf : s.Of input log) :
    { lexemes := input.lexemes, records, log : Reader }.Starting s := by
  have hComplete := input.complete_lexemes
  refine
    { current := rfl
      last := Parse.shows_start s
      lexemes := ?_
      ends := hComplete.ends
      closed := hOf.closed
      source := fun _ => hOf.source.symm }
  intro x hMember
  have hShows : s.shown → ∀ text ∈ s.source, x.Shown text := by
    intro hShown text hText
    rw [hOf.source] at hText
    exact hOf.shown hShown text hText x hMember
  cases x with
  | token t => exact ⟨hShows, hComplete.lines t hMember⟩
  | mistake => exact hShows
  | unreadable => trivial

----
-- Items
----

namespace Parse

/- Recovery goes on behind everything that is reported. -/
theorem recover_ne_reported (top : Bool) (fuel depth : Nat) (last skipped : Span) (r r' : Reader) :
    recover top fuel depth last skipped r ≠ .error .reported r' := by
  induction fuel generalizing depth last skipped r with
  | zero => rintro ⟨⟩
  | succ fuel ih =>
    rw [recover, bind_of_ok (x := token) rfl rfl]
    split
    · rintro ⟨⟩
    · cases hNext : nextAfterMistake r with
      | ok _ r₁ =>
        rw [bind_of_ok hNext rfl]
        exact ih _ _ _ r₁
      | error halt r₁ =>
        rw [bind_of_error hNext]
        rintro ⟨⟩
        unfold nextAfterMistake at hNext
        split at hNext
        · cases hNext
        · rename_i hOther
          exact hOther _ hNext

theorem nextItem_ne_reported (r r' : Reader) : nextItem r ≠ .error .reported r' := by
  unfold nextItem
  rw [bind_of_ok (x := token) rfl rfl]
  split
  · nofun
  · rw [bind_of_get rfl]
    intro hRun
    cases hItem : recovering true (operation (r.lexemes.length + 4)) r with
    | ok i r₁ =>
      rw [bind_of_ok hItem rfl] at hRun
      cases hRun
    | error halt r₁ =>
      rw [bind_of_error hItem] at hRun
      cases hRun
      rw [recovering_eq] at hItem
      split at hItem
      · exact recover_ne_reported _ _ _ _ _ _ _ hItem
      · rename_i hOther
        exact hOther _ hItem

/-
  What comes next has taken a lexeme, or is the end of the text.
  There is nothing else but an excerpt that can not be shown.
-/
def Advances (shown : Prop) (r : Reader) : EStateM.Result Halt Reader (Except Span Item) → Prop
  | .ok (.error _) _ => r.current.kind = .finish
  | .ok (.ok _) r' => r'.lexemes <:+ r.lexemes ∧ r'.lexemes.length < r.lexemes.length
  | .error .reported _ => False
  | .error .unreadable r' => r'.lexemes <:+ r.lexemes ∧ r'.lexemes.length < r.lexemes.length
  | .error (.fault f) _ => f = .charBoundary ∧ ¬ shown

theorem nextItem_advances (hSound : r.Sound s) (hClosed : s.closed) :
    Advances s.shown r (nextItem r) := by
  by_cases hEnd : r.current.kind = .finish
  · rw [nextItem_finish hEnd]
    exact hEnd
  · have hEnds := nextItem_ends hSound hEnd
    cases hNext : nextItem r with
    | ok found r' =>
      rw [hNext] at hEnds
      rcases hEnds with ⟨-, hBefore, hLess, i, rfl, -⟩
      exact ⟨hBefore.suffix, hLess⟩
    | error halt r' =>
      rw [hNext] at hEnds
      cases halt with
      | reported => exact absurd hNext (nextItem_ne_reported r r')
      | unreadable => exact hEnds
      | fault f => exact hEnds.resolve_left fun hOpen => hOpen.2 hClosed

end Parse

----
-- Modules
----

/-
  The readers that look for an item while a module is read, with
  the draft so far.
-/
inductive Module.Visits (handles : Handles) (records : RecordTable) (log : Log)
    (input : Input) : Reader → Draft → Prop where
  | first {r : Reader} (hFirst : Parse.first (input.lexemes.length + 1)
          { lexemes := input.lexemes, records, log } = .ok () r) :
      Visits handles records log input r { module := Module.emptyAfter handles }
  | item {r r' : Reader} {d d' : Draft} {i : Item} (hBefore : Visits handles records log input r d)
      (hItem : Parse.nextItem r = .ok (.ok i) r')
      (hTop : Assemble.top r'.records i { d with log := r'.log } = .ok () d') :
      Visits handles records log input { r' with log := d'.log } d'

/- A draft that nothing has been added to. -/
theorem Draft.whole_empty (handles : Handles) (hSource : s.shown → l.source = s.source) :
    { module := Module.emptyAfter handles, log := l : Draft }.Whole s where
  module := .of_empty handles
  written := by constructor <;> simp [Module.emptyAfter]
  values := by simp
  forward := by simp
  waiting := List.nodup_nil
  labels := by simp
  source := hSource

/- An item takes a lexeme, and is assembled. -/
theorem item_returns (hSound : r.Sound s)
    (hWhole : { d with log := r.log : Draft }.Whole s) (hItem : Parse.nextItem r = .ok (.ok i) r') :
    r'.lexemes.length < r.lexemes.length ∧
    Assemble.Returns s (Assemble.top r'.records i) { d with log := r'.log } fun _ d' =>
        { r' with log := d'.log : Reader }.Sound s ∧ d'.Whole s := by
  have hMore : r.current.kind ≠ .finish := by
    intro hEnd
    rw [Parse.nextItem_finish hEnd] at hItem
    cases hItem
  have hEnds := Parse.nextItem_ends hSound hMore
  rw [hItem] at hEnds
  rcases hEnds with ⟨hSound', -, hLess, i', hSame, hFine⟩
  cases hSame
  have hNext : { d with log := r'.log : Draft }.Whole s := { hWhole with source := hSound'.source }
  refine ⟨hLess, (Assemble.top_returns r'.records hNext hFine.text).mono
    fun _ d' hWhole' => ⟨?_, hWhole'⟩⟩
  exact { hSound' with source := hWhole'.source }

/- What is known of an input is known of every reader in it. -/
theorem Module.Visits.sound (hOf : s.Of input log)
    (hVisits : Module.Visits handles records log input r d) :
    r.Sound s ∧ { d with log := r.log : Draft }.Whole s := by
  induction hVisits with
  | first hFirst =>
    rcases Parse.first_ends (hOf.starting records)
      (Nat.lt_succ_self _) with ⟨r', hRun, hSound, -⟩ | ⟨r', hRun, -⟩
    · rw [hFirst] at hRun
      cases hRun
      exact ⟨hSound, Draft.whole_empty handles hSound.source⟩
    · rw [hFirst] at hRun
      cases hRun
  | item _ hItem hTop ih =>
    rcases (item_returns ih.1 ih.2 hItem).2 with ⟨_, d', hRun, hNext⟩ | ⟨d', hRun, -⟩
    · rw [hTop] at hRun
      cases hRun
      exact hNext
    · rw [hTop] at hRun
      cases hRun

/-
  A reader with enough fuel comes to the end of the text. The
  induction is on the fuel, and each item takes a lexeme.
-/
theorem readItems_ends (hSound : r.Sound s)
    (hWhole : { d with log := r.log : Draft }.Whole s) (hFuel : r.lexemes.length < fuel)
    (hFault : (readItems fuel r d).outcome = .error f) :
    f = .endless ∧ ¬ s.closed ∨ f = .charBoundary ∧ ¬ s.shown := by
  induction fuel generalizing r d with
  | zero => omega
  | succ fuel ih =>
    rw [readItems] at hFault
    cases hNext : Parse.nextItem r with
    | error halt after =>
      rw [hNext] at hFault
      have hMore : r.current.kind ≠ .finish := by
        intro hEnd
        rw [Parse.nextItem_finish hEnd] at hNext
        cases hNext
      have hEnds := Parse.nextItem_ends hSound hMore
      rw [hNext] at hEnds
      cases halt with
      | reported => cases hFault
      | unreadable => cases hFault
      | fault g =>
        cases hFault
        exact hEnds
    | ok found after =>
      rw [hNext] at hFault
      cases found with
      | error span => cases hFault
      | ok i =>
        rcases item_returns hSound hWhole hNext with ⟨hLess, ⟨_, d', hRun, hSound', hWhole'⟩ |
            ⟨d', hRun, hHidden⟩⟩
        · simp only [hRun] at hFault
          split at hFault
          · cases hFault
          · exact ih hSound' hWhole' (by change after.lexemes.length < fuel; omega) hFault
        · simp only [hRun] at hFault
          cases hFault
          exact .inr ⟨rfl, hHidden⟩

/- A module is read to its end, but for two faults. -/
theorem Module.read_ends (hOf : s.Of input log) (hFault :
      (Module.read handles records log input).outcome = .error f) :
    f = .endless ∧ ¬ s.closed ∨ f = .charBoundary ∧ ¬ s.shown := by
  rw [Module.read] at hFault
  rcases Parse.first_ends (hOf.starting records) (Nat.lt_succ_self _) with
    ⟨r, hRun, hSound, -⟩ | ⟨r, hRun, hHidden⟩
  · simp only [hRun] at hFault
    exact readItems_ends hSound (Draft.whole_empty handles hSound.source) (by omega) hFault
  · simp only [hRun] at hFault
    cases hFault
    exact .inr ⟨rfl, hHidden⟩

/-
  A module with balanced braces is read to its end, and every
  look for an item but the last one takes a lexeme.
-/
theorem Module.read_terminates (handles : Handles) (records : RecordTable) (log : Log)
    {input : Input} (hBalanced : input.Balanced) (hUnbroken : input.Unbroken) :
    (∀ f, (Module.read handles records log input).outcome = .error f →
      f = .charBoundary ∧ ¬ input.Shown log.source) ∧
    ∀ r d, Module.Visits handles records log input r d → Parse.Advances (input.Shown log.source) r
        (Parse.nextItem r) := by
  let s : Setting := ⟨log.source, input.Shown log.source, True⟩
  have hOf : s.Of input log := ⟨rfl, id, fun _ => hBalanced.closed hUnbroken⟩
  refine ⟨fun f hFault => ?_, fun r d hVisits => ?_⟩
  · exact (Module.read_ends hOf hFault).resolve_left fun hOpen => hOpen.2 trivial
  · exact Parse.nextItem_advances (hVisits.sound hOf).1 trivial

/- A text with mistakes, also inside of braces. -/
def mistakenText : String := "x \x7b y % \x7d %"

theorem Module.read_terminates_mistaken : (Input.ofString mistakenText).Balanced ∧
    (Input.ofString mistakenText).Unbroken ∧
    (∀ f, (Module.read {} {} { source := some mistakenText }
        (Input.ofString mistakenText)).outcome = .error f →
      f = .charBoundary ∧ ¬ (Input.ofString mistakenText).Shown (some mistakenText)) ∧
    ∀ r d, Module.Visits {} {} { source := some mistakenText } (Input.ofString mistakenText) r d →
      Parse.Advances ((Input.ofString mistakenText).Shown (some mistakenText)) r
        (Parse.nextItem r) :=
  have hBalanced : (Input.ofString mistakenText).Balanced := by decide +kernel
  have hUnbroken : (Input.ofString mistakenText).Unbroken := by decide +kernel
  ⟨hBalanced, hUnbroken, Module.read_terminates {} {}
    { source := some mistakenText } hBalanced hUnbroken⟩

/- A brace with a mistake behind it is counted twice. -/
theorem Module.read_countedTwice : (Input.ofString "\x7b % \x7d").Balanced ∧
    (Module.read {} {} { source := some "\x7b % \x7d" } (Input.ofString "\x7b % \x7d")).outcome =
        .error .endless := by
  refine ⟨by decide +kernel, ?_⟩
  cbv

/- A module that is read to its end is read without a fault. -/
theorem Module.read_returns (handles : Handles) (records : RecordTable) (log : Log) {input : Input}
    (hShown : input.Shown log.source)
    (hEnds : (Module.read handles records log input).outcome ≠ .error .endless) :
    ∃ result, (Module.read handles records log input).outcome = .ok result := by
  let s : Setting := ⟨log.source, True, False⟩
  have hOf : s.Of input log := ⟨rfl, fun _ => hShown, False.elim⟩
  cases hFault : (Module.read handles records log input).outcome with
  | ok result => exact ⟨result, rfl⟩
  | error f =>
    rcases Module.read_ends hOf hFault with ⟨rfl, -⟩ | ⟨-, hHidden⟩
    · exact absurd hFault hEnds
    · exact absurd trivial hHidden

/- A text with a long character before a mistake. -/
def accentedText : String := "x \"é\" %"

theorem Module.read_returns_accented : (Input.ofString accentedText).Shown (some accentedText) ∧
    (Module.read {} {} { source := some accentedText }
      (Input.ofString accentedText)).outcome ≠ .error .endless ∧
    ∃ result, (Module.read {} {} { source := some accentedText }
        (Input.ofString accentedText)).outcome = .ok result := by
  have hShown : (Input.ofString accentedText).Shown (some accentedText) := by
    intro text hText
    rw [← Option.some.inj hText]
    decide +kernel
  have hOk : (Module.read {} {} { source := some accentedText }
        (Input.ofString accentedText)).outcome.toOption.isSome = true := by decide +kernel
  have hEnds : (Module.read {} {} { source := some accentedText }
        (Input.ofString accentedText)).outcome ≠ .error .endless := by
    intro hFault
    rw [hFault] at hOk
    cases hOk
  exact ⟨hShown, hEnds, Module.read_returns {} {} { source := some accentedText } hShown hEnds⟩

/- The excerpt of a long character begins and ends inside of it. -/
theorem Module.read_cutCharacter : (Module.read {} {} { source := some "é" }
      (Input.ofString "é")).outcome = .error .charBoundary := by cbv

end FortranIR
