import FortranIR.Item.Parser
import FortranIR.Proofs.Reading.Excerpts

/-
  This file describes the steps of a reader by what they take
  from the input, and by the faults that can end them.

  A reader that stands in an input keeps a few things: the input
  has an end, tokens do not reach over lines, and, if that was so
  at the start, spans can be shown and no region stays open. A
  step never goes back, and a step that takes nothing leaves the
  current token where it is. Fuel runs out only if a region stays
  open, and the only other fault is an excerpt that can not be
  shown.

  Main declarations:
    * `Setting`
    * `Parse.list_does`
-/

namespace FortranIR

variable {x : Lexeme} {rest : List Lexeme} {r₁ r : Reader}
variable {l : Log}

----
-- Settings
----

/-
  What may be known of an input: the text that excerpts are made
  of, whether its spans can be shown, and whether every region in
  it is closed.
-/
structure Setting where
  source : Option String
  shown : Prop
  closed : Prop

/- A span can be shown, if those of the input can. -/
def Setting.Shows (s : Setting) (span : Span) : Prop := s.shown → ∀ text ∈ s.source, span.Shown text

variable {s : Setting}

theorem Setting.Shows.extendTo (hFirst : s.Shows a) (hLast : s.Shows b) :
    s.Shows (a.extendTo b) := by
  intro hShown text hText
  exact ⟨(hFirst hShown text hText).1, (hLast hShown text hText).2⟩

/- A report at a span that can be shown is written. -/
theorem Setting.report_cases (severity : Severity) (span : Option Span) (message : String)
    (hSource : s.shown → l.source = s.source) (hSpan : ∀ x ∈ span, s.Shows x) :
    ∃ l' : Log, (Log.report severity span message l = .ok () l' ∨
        Log.report severity span message l = .error .charBoundary l' ∧ ¬ s.shown) ∧
      l.Before l' := by
  rcases Log.report_cases severity span message l with
    ⟨l', hOk | ⟨hCut, x, hMember, text, hText, hHidden⟩, hShows, hErrors⟩
  all_goals have hSame : l.Before l' := ⟨hShows, by cases severity <;> simp [hErrors, Log.count]⟩
  · exact ⟨l', .inl hOk, hSame⟩
  · refine ⟨l', .inr ⟨hCut, fun hShown => hHidden ?_⟩, hSame⟩
    rw [hSource hShown] at hText
    exact hSpan x hMember hShown text hText

----
-- Lexemes
----

/- A token stands in one line, and can be shown. -/
structure Token.Fine (s : Setting) (t : Token) : Prop where
  shows : s.Shows t.span
  line : t.span.sameLine t.span = true

/- What a lexeme stands for can be reported. -/
def Lexeme.Fine (s : Setting) : Lexeme → Prop
  | token t => t.Fine s
  | mistake span _ => s.Shows span
  | unreadable => True

theorem Lexeme.report_cases (hFine : x.Fine s) (hSource : s.shown → l.source = s.source) :
    ∃ l' : Log, (x.report l = .ok () l' ∨ x.report l = .error .charBoundary l' ∧ ¬ s.shown) ∧
      l.Before l' := by
  cases x with
  | token t => exact ⟨l, .inl rfl, rfl, .refl⟩
  | mistake span message =>
    exact Setting.report_cases .error (some span) message hSource
      (by simpa [Lexeme.Fine] using hFine)
  | unreadable => exact Setting.report_cases .error none "read failed" hSource (by simp)

/-
  The lexemes behind a token go on to the end of the text, or to
  where it can not be read.
-/
def EndsBehind (k : TokenKind) : List Lexeme → Prop
  | [] => k = .finish
  | .token t :: rest => k ≠ .finish ∧ EndsBehind t.kind rest
  | .mistake _ _ :: rest => k ≠ .finish ∧ EndsBehind k rest
  | .unreadable :: rest => k ≠ .finish ∧ rest = []

/-
  The depth of nested regions at the end, as recovery counts it:
  a token counts again behind each mistake.
-/
def depthAhead (depth : Nat) (k : TokenKind) : List Lexeme → Nat
  | [] => Parse.depthAfter depth k
  | .token t :: rest => depthAhead (Parse.depthAfter depth k) t.kind rest
  | .mistake _ _ :: rest => depthAhead (Parse.depthAfter depth k) k rest
  | .unreadable :: _ => 0

theorem depthAfter_mono (hLess : a ≤ b) (k : TokenKind) :
    Parse.depthAfter a k ≤ Parse.depthAfter b k := by
  unfold Parse.depthAfter
  split
  · omega
  · split
    · omega
    · exact hLess

theorem depthAhead_mono (hLess : a ≤ b) (k : TokenKind) (lexemes : List Lexeme) :
    depthAhead a k lexemes ≤ depthAhead b k lexemes := by
  induction lexemes generalizing a b k with
  | nil => exact depthAfter_mono hLess k
  | cons x rest ih =>
    cases x with
    | token t => exact ih (depthAfter_mono hLess k) t.kind
    | mistake => exact ih (depthAfter_mono hLess k) k
    | unreadable => exact .refl

----
-- Readers
----

/- A reader stands in an input with what is known of it. -/
structure Reader.Sound (s : Setting) (r : Reader) : Prop where
  current : r.current.Fine s
  last : s.Shows r.last
  lexemes : ∀ x ∈ r.lexemes, x.Fine s
  ends : EndsBehind r.current.kind r.lexemes
  closed : s.closed → depthAhead 0 r.current.kind r.lexemes = 0
  source : s.shown → r.log.source = s.source

/-
  A reader has gone on, or stands where it was. It sees the same
  token then.
-/
structure Reader.Before (r r' : Reader) : Prop where
  suffix : r'.lexemes <:+ r.lexemes
  same : r'.lexemes.length = r.lexemes.length → r'.current = r.current
  errors : r.log.errors ≤ r'.log.errors

namespace Reader

variable {r₂ : Reader}

theorem Before.refl (r : Reader) : r.Before r := ⟨List.suffix_refl _, fun _ => rfl, .refl⟩

theorem Before.length_le (hBefore : r₁.Before r₂) : r₂.lexemes.length ≤ r₁.lexemes.length :=
  hBefore.suffix.length_le

theorem Before.trans (hFirst : r₁.Before r₂) (hSecond : r₂.Before r₃) : r₁.Before r₃ := by
  refine ⟨hSecond.suffix.trans hFirst.suffix, fun hSame => ?_,
    Nat.le_trans hFirst.errors hSecond.errors⟩
  have hLess₁ := hFirst.length_le
  have hLess₂ := hSecond.length_le
  rw [hSecond.same (by omega), hFirst.same (by omega)]

theorem Before.of_cons (hLexemes : r₁.lexemes = x :: r₂.lexemes) (hLog : r₁.log.Before r₂.log) :
    r₁.Before r₂ := by
  refine ⟨hLexemes ▸ List.suffix_cons _ _, fun hSame => ?_, hLog.errors⟩
  rw [hLexemes, List.length_cons] at hSame
  omega

/- There is something ahead of every token but the end. -/
theorem Sound.lexemes_ne_nil (hSound : r.Sound s) (hMore : r.current.kind ≠ .finish) :
    r.lexemes ≠ [] := by
  intro hNone
  have hEnds := hSound.ends
  rw [hNone] at hEnds
  exact hMore hEnds

theorem Sound.head (hSound : r.Sound s) (hLexemes : r.lexemes = x :: rest) : x.Fine s :=
  hSound.lexemes x (hLexemes ▸ List.mem_cons_self)

/- What the log says does not matter, only what it shows. -/
theorem Sound.with_log (hSound : r.Sound s) (hSource : l.source = r.log.source) :
    { r with log := l : Reader }.Sound s where
  __ := hSound
  source := fun hShown => hSource.trans (hSound.source hShown)

end Reader

----
-- Outcomes
----

namespace Parse

variable {α β : Type} {p : Token → Prop} {m : Nat} {holds holds' : α → Prop}
variable {holdsNext : β → Prop} {x : Parse α} {f : α → Parse β} {thing : Parse α}
variable {result : EStateM.Result Halt Reader α}

/-
  How a step of a reader ends: with something that holds and less
  than `n` lexemes ahead, with a report, at an input that can not
  be read, or with one of two faults.
-/
def Ends (s : Setting) (r : Reader) (n : Nat) (holds : α → Prop) :
    EStateM.Result Halt Reader α → Prop
  | .ok a r' => r'.Sound s ∧ r.Before r' ∧ r'.lexemes.length < n ∧ holds a
  | .error .reported r' => r'.Sound s ∧ r.Before r'
  | .error .unreadable r' => r'.lexemes <:+ r.lexemes ∧ r'.lexemes.length < r.lexemes.length
  | .error (.fault f) _ => f = .endless ∧ ¬ s.closed ∨ f = .charBoundary ∧ ¬ s.shown

/-
  A step that is made at a token with less than `m` lexemes ahead
  ends with less than `n` ahead.
-/
def Does (s : Setting) (p : Token → Prop) (m n : Nat) (x : Parse α) (holds : α → Prop) : Prop :=
  ∀ r : Reader, r.Sound s → p r.current → r.lexemes.length < m → Ends s r n holds (x r)

/- Any token. -/
def Anywhere (_ : Token) : Prop := True

/- Any result. -/
def Anyhow (_ : α) : Prop := True

theorem Ends.mono (hEnds : Ends s r n holds result) (hMore : n ≤ n')
    (hHolds : ∀ a, holds a → holds' a) : Ends s r n' holds' result := by
  match result, hEnds with
  | .ok a r', ⟨hSound, hBefore, hLess, hHold⟩ =>
    exact ⟨hSound, hBefore, Nat.lt_of_lt_of_le hLess hMore, hHolds a hHold⟩
  | .error .reported _, hReported => exact hReported
  | .error .unreadable _, hUnreadable => exact hUnreadable
  | .error (.fault _) _, hFault => exact hFault

/- A step that follows one that has been made. -/
theorem Ends.after (hBefore : r.Before r₁) (hEnds : Ends s r₁ n holds result) :
    Ends s r n holds result := by
  match result, hEnds with
  | .ok a r', ⟨hSound, hNext, hLess, hHold⟩ => exact ⟨hSound, hBefore.trans hNext, hLess, hHold⟩
  | .error .reported r', ⟨hSound, hNext⟩ => exact ⟨hSound, hBefore.trans hNext⟩
  | .error .unreadable r', ⟨hSuffix, hLess⟩ =>
    exact ⟨hSuffix.trans hBefore.suffix, Nat.lt_of_lt_of_le hLess hBefore.length_le⟩
  | .error (.fault _) _, hFault => exact hFault

----
-- Composition
----

namespace Does

theorem mono (hDoes : Does s p m n x holds) (hAt : ∀ t, p' t → p t) (hFrom : m' ≤ m) (hTo : n ≤ n')
    (hHolds : ∀ a, holds a → holds' a) : Does s p' m' n' x holds' := by
  intro r hSound hToken hLess
  exact (hDoes r hSound (hAt _ hToken) (Nat.lt_of_lt_of_le hLess hFrom)).mono hTo hHolds

/- The same step, with other numbers of lexemes. -/
theorem weaken (hDoes : Does s Anywhere m n x holds) (hFrom : m' ≤ m) (hTo : n ≤ n') :
    Does s p m' n' x holds := hDoes.mono (fun _ _ => trivial) hFrom hTo fun _ hHold => hHold

theorem pure (hHolds : holds a) (hLess : m ≤ n) : Does s p m n (Pure.pure a) holds := by
  intro r hSound _ hLength
  exact ⟨hSound, .refl r, Nat.lt_of_lt_of_le hLength hLess, hHolds⟩

theorem bind (hFirst : Does s p m n x holds)
    (hNext : ∀ a, holds a → Does s Anywhere n n' (f a) holdsNext) :
    Does s p m n' (x >>= f) holdsNext := by
  intro r hSound hToken hLess
  have hEnds := hFirst r hSound hToken hLess
  cases hRun : x r with
  | ok a r₁ =>
    rw [hRun] at hEnds
    rcases hEnds with ⟨hSound₁, hBefore, hLess₁, hHold⟩
    rw [bind_of_ok hRun rfl]
    exact .after hBefore (hNext a hHold r₁ hSound₁ trivial hLess₁)
  | error halt r₁ =>
    rw [hRun] at hEnds
    rw [bind_of_error hRun]
    cases halt <;> exact hEnds

/- A look at the current token goes nowhere. -/
theorem look {g : Token → α} (hLook : ∀ r : Reader, x r = .ok (g r.current) r) (hNext :
      ∀ t, p t → t.Fine s → Does s (· = t) m n (f (g t)) holdsNext) :
    Does s p m n (x >>= f) holdsNext := by
  intro r hSound hToken hLess
  rw [bind_of_ok (hLook r) rfl]
  exact hNext r.current hToken hSound.current r hSound rfl hLess

theorem token {f : Token → Parse β} (hNext :
      ∀ t, p t → t.Fine s → Does s (· = t) m n (f t) holdsNext) :
    Does s p m n (token >>= f) holdsNext := look (g := id) (fun _ => rfl) hNext

theorem kind {f : TokenKind → Parse β} (hNext :
      ∀ t, p t → Does s (· = t) m n (f t.kind) holdsNext) : Does s p m n (kind >>= f) holdsNext :=
  look (fun _ => rfl) fun t hToken _ => hNext t hToken

theorem span {f : Span → Parse β} (hNext :
      ∀ place, s.Shows place → Does s p m n (f place) holdsNext) :
    Does s p m n (span >>= f) holdsNext := by
  refine look (g := Token.span) (fun _ => rfl) fun t hToken hFine => ?_
  refine (hNext t.span hFine.shows).mono ?_ .refl .refl fun _ hHold => hHold
  rintro _ rfl
  exact hToken

/- The place behind which a reader stands can be shown. -/
theorem last {f : Reader → Parse β} (hNext : ∀ r : Reader, s.Shows r.last →
        Does s p m n (f r) holdsNext) : Does s p m n (get >>= f) holdsNext :=
  fun r hSound hToken hLess => hNext r hSound.last r hSound hToken hLess

/- A choice by the kind of the current token. -/
theorem isAt {yes no : Parse β} (hYes : Does s (fun t => t.kind = k) m n yes holdsNext)
    (hNo : Does s p m n no holdsNext) :
    Does s p m n (isAt k >>= fun b => if b = true then yes else no) holdsNext := by
  refine look (g := fun t => t.kind == k) (fun _ => rfl) ?_
  intro t hToken _
  by_cases hKind : t.kind = k
  · rw [if_pos (beq_iff_eq.mpr hKind)]
    exact fun r hSound hSame hLess => hYes r hSound (hSame ▸ hKind) hLess
  · rw [if_neg (mt beq_iff_eq.mp hKind)]
    exact fun r hSound hSame hLess => hNo r hSound (hSame ▸ hToken) hLess

/- Without room for a lexeme there is nothing to show. -/
theorem of_pos (hDoes : 0 < m → Does s p m n x holds) : Does s p m n x holds :=
  fun r hSound hToken hLess => hDoes (Nat.zero_lt_of_lt hLess) r hSound hToken hLess

theorem ite [Decidable c] {yes no : Parse α} (hYes : c → Does s p m n yes holds)
    (hNo : ¬ c → Does s p m n no holds) : Does s p m n (if c then yes else no) holds := by
  split
  · exact hYes ‹c›
  · exact hNo ‹¬ c›

end Does

----
-- Reports
----

/- Something is written at a place that can be shown. -/
theorem log_ends (severity : Severity) (message : String) (hPlace : s.Shows place)
    (hSound : r.Sound s) : (∃ l, r.log.Before l ∧ log (Log.report severity (some place) message) r =
        .ok () { r with log := l }) ∨ ∃ r', log (Log.report severity (some place) message) r =
        .error (.fault .charBoundary) r' ∧ ¬ s.shown := by
  rcases Setting.report_cases severity (some place) message
    hSound.source (by simpa using hPlace) with ⟨l, hOk | ⟨hCut, hHidden⟩, hSame⟩
  · refine .inl ⟨l, hSame, ?_⟩
    simp only [log, hOk]
  · refine .inr ⟨{ r with log := l }, ?_, hHidden⟩
    simp only [log, hCut]

theorem log_does (severity : Severity) (message : String) (hPlace : s.Shows place) :
    Does s p m m (log (Log.report severity (some place) message)) Anyhow := by
  intro r hSound _ hLess
  rcases log_ends severity message hPlace hSound with ⟨l, hSame, hRun⟩ | ⟨r', hRun, hHidden⟩
  · rw [hRun]
    exact ⟨hSound.with_log hSame.source, ⟨List.suffix_refl _, fun _ => rfl, hSame.errors⟩, hLess,
      trivial⟩
  · rw [hRun]
    exact .inr ⟨rfl, hHidden⟩

theorem fail_does (message : String) (hPlace : s.Shows place) :
    Does s p m n (fail place message) holds := by
  refine .bind (log_does .error message hPlace) fun _ _ => ?_
  exact fun r hSound _ _ => ⟨hSound, .refl r⟩

/- Nothing is done behind a report that stops. -/
theorem fail_bind_does (message : String) (hPlace : s.Shows place) :
    Does s p m n (fail place message >>= f) holdsNext :=
  have hNever : Does s p m m (fail place message) fun _ => False := fail_does message hPlace
  .bind hNever fun _ hFalse => hFalse.elim

theorem unexpected_does (expected : String) : Does s p m n (unexpected expected) holds :=
  .token fun _ _ hFine => fail_does _ hFine.shows

----
-- Tokens
----

/- What a lexeme brings, if what is wrong with it is reported. -/
def taken (r : Reader) (rest : List Lexeme) (l : Log) : Lexeme → EStateM.Result Halt Reader Unit
  | .token t =>
    .ok () { r with
        lexemes := rest
        current := t
        last := r.current.span
        log := l }
  | .mistake _ _ => .error .reported { r with lexemes := rest, last := r.current.span, log := l }
  | .unreadable => .error .unreadable { r with lexemes := rest, last := r.current.span, log := l }

theorem next_cases {x : Lexeme} (hFine : x.Fine s) (hSource : s.shown → r.log.source = s.source)
    (hLexemes : r.lexemes = x :: rest) :
    (∃ r', next r = .error (.fault .charBoundary) r' ∧ ¬ s.shown) ∨
    ∃ l : Log, r.log.Before l ∧ next r = taken r rest l x := by
  rcases Lexeme.report_cases hFine hSource with ⟨l, hOk | ⟨hCut, hHidden⟩, hSame⟩
  · refine .inr ⟨l, hSame, ?_⟩
    unfold next
    simp only [modify_bind_run, get_bind_run, hLexemes]
    cases x <;> simp only [bind, EStateM.bind, log, hOk] <;> rfl
  · refine .inl ⟨{ r with lexemes := rest, last := r.current.span, log := l }, ?_, hHidden⟩
    unfold next
    simp only [modify_bind_run, get_bind_run, hLexemes]
    simp only [bind, EStateM.bind, log, hCut]

/- The reader behind a token or a mistake that has been taken. -/
theorem sound_behind {x : Lexeme} (hSound : r.Sound s)
    (hLexemes : r.lexemes = x :: rest) (hToken : x = .token t ∨
        t = r.current ∧ ∃ span message, x = .mistake span message)
    (hSame : l.source = r.log.source) : { r with
      lexemes := rest
      current := t
      last := r.current.span
      log := l : Reader }.Sound s := by
  have hEnds := hSound.ends
  have hClosed := hSound.closed
  have hFine := hSound.lexemes
  rw [hLexemes] at hEnds hClosed hFine
  have hLess : ∀ k, depthAhead 0 k rest ≤ depthAhead (depthAfter 0 r.current.kind) k rest :=
    fun k => depthAhead_mono (Nat.zero_le _) k rest
  refine
    { current := ?_
      last := hSound.current.shows
      lexemes := fun y hMember => hFine y (.tail _ hMember)
      ends := ?_
      closed := fun hAll => ?_
      source := fun hShown => hSame.trans (hSound.source hShown) }
  · rcases hToken with rfl | ⟨rfl, -⟩
    · exact hFine _ (.head _)
    · exact hSound.current
  · rcases hToken with rfl | ⟨rfl, span, message, rfl⟩
    · exact hEnds.2
    · exact hEnds.2
  · apply Nat.le_zero.mp
    rcases hToken with rfl | ⟨rfl, span, message, rfl⟩
    · exact Nat.le_trans (hLess t.kind) (Nat.le_of_eq (hClosed hAll))
    · exact Nat.le_trans (hLess _) (Nat.le_of_eq (hClosed hAll))

theorem next_does (hMore : ∀ t, p t → t.kind ≠ .finish) : Does s p m (m - 1) next Anyhow := by
  intro r hSound hToken hLength
  cases hLexemes : r.lexemes with
  | nil => exact absurd hLexemes (hSound.lexemes_ne_nil (hMore _ hToken))
  | cons x rest =>
    rw [hLexemes] at hLength
    rcases next_cases (hSound.head hLexemes) hSound.source hLexemes with
      ⟨r', hRun, hHidden⟩ | ⟨l, hSame, hRun⟩
    · rw [hRun]
      exact .inr ⟨rfl, hHidden⟩
    · cases x with
      | token t =>
        rw [hRun]
        exact ⟨sound_behind hSound hLexemes (.inl rfl) hSame.source,
          .of_cons hLexemes hSame, Nat.lt_sub_of_add_lt hLength, trivial⟩
      | mistake span message =>
        rw [hRun]
        exact ⟨sound_behind hSound hLexemes (.inr ⟨rfl, span, message, rfl⟩) hSame.source,
          .of_cons hLexemes hSame⟩
      | unreadable =>
        rw [hRun]
        refine ⟨hLexemes ▸ List.suffix_cons _ _, ?_⟩
        rw [hLexemes]
        exact Nat.lt_succ_self _

theorem next_char : Does s (fun t => t.kind = .other c) m (m - 1) next Anyhow :=
  next_does fun _ hKind => by simp [hKind]

theorem next_word {word : String} : Does s (fun t => t.kind = .ident word) m (m - 1) next Anyhow :=
  next_does fun _ hKind => by simp [hKind]

theorem expect_does (hMore : k ≠ .finish) : Does s p m (m - 1) (expect k) Anyhow :=
  .isAt (next_does fun _ hKind => hKind ▸ hMore) (unexpected_does k.describe)

theorem Does.char {f : Unit → Parse β}
    (hNext : Does s Anywhere (m - 1) n (f ()) holdsNext) :
    Does s p m n (expectChar c >>= f) holdsNext := .bind (expect_does nofun) fun _ _ => hNext

theorem Does.word {word : String} {f : Unit → Parse β}
    (hNext : Does s Anywhere (m - 1) n (f ()) holdsNext) :
    Does s p m n (expectWord word >>= f) holdsNext := .bind (expect_does nofun) fun _ _ => hNext

theorem item_does (expected : String)
    (hNone : content? .finish = none) : Does s p m (m - 1) (item content? expected) Anyhow := by
  refine .kind fun t _ => ?_
  split
  · rename_i a hSome
    refine .bind (next_does ?_) fun _ _ => .pure trivial .refl
    rintro _ rfl hEnd
    rw [hEnd, hNone] at hSome
    cases hSome
  · exact unexpected_does expected

----
-- Lists
----

/-
  Things that are divided by commas. The fuel suffices, since
  every comma is taken.
-/
theorem separated_does (hThing : ∀ k ≤ m, Does s Anywhere k k thing holds) (hFuel : m ≤ fuel) :
    Does s p m m (separated thing fuel) (∀ a ∈ ·, holds a) := by
  induction fuel generalizing m p with
  | zero =>
    intro r _ _ hLess
    omega
  | succ fuel ih =>
    refine .bind ((hThing m (Nat.le_refl m)).weaken .refl
      .refl) fun a hFirst => ?_
    refine .isAt ?_ (.pure (by simpa using hFirst) .refl)
    refine .bind next_char fun _ _ => ?_
    have hRest := ih (m := m - 1) (p := Anywhere) (fun k hLess => hThing k (by omega)) (by omega)
    refine .bind hRest fun as hHolds => ?_
    exact .pure (List.forall_mem_cons.mpr ⟨hFirst, hHolds⟩) (by omega)

theorem list_does (hThing : ∀ k ≤ m - 1, Does s Anywhere k k thing holds)
    (hFuel : m - 1 ≤ fuel) :
    Does s p m (m - 1 - 1) (list fuel opening closing thing) (∀ a ∈ ·, holds a) := by
  refine .char ?_
  have hRest : ∀ as : List α, (∀ a ∈ as, holds a) → Does s Anywhere (m - 1) (m - 1 - 1)
          (do expectChar closing; return as) (∀ a ∈ ·, holds a) :=
    fun as hHolds => .char (.pure hHolds .refl)
  refine .isAt (.bind (.pure ?_ .refl) hRest) (.bind (separated_does hThing hFuel) hRest)
  exact nofun

end Parse

end FortranIR
