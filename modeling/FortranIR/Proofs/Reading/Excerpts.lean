import FortranIR.Proofs.Steps

/-
  This file states when the diagnostics of a text can be written.

  An excerpt cuts lines at byte columns. It can be made if both
  ends of the span lie between characters; column zero and the
  columns behind the end of a line always do.

  Main declarations:
    * `Pos.Between`
    * `Log.report_cases`
-/

namespace FortranIR

----
-- Positions between characters
----

/- The line of a text with a number. -/
def lineOf (text : String) (n : Nat) : List Char := ((textLines text)[n - 1]?).getD []

/-
  The bytes of a line up to a column are whole characters. There
  are no more bytes than those of the line.
-/
def Pos.Between (text : String) (p : Pos) : Prop := let line := lineOf text p.line
  ∃ n ≤ line.length, byteLength (line.take n) = min p.col (byteLength line)

instance (text : String) (p : Pos) : Decidable (p.Between text) :=
  inferInstanceAs (Decidable (∃ n ≤ _, _))

/- Both ends of a span lie between characters. -/
def Span.Shown (text : String) (s : Span) : Prop := s.first.Between text ∧ s.last.Between text

instance (text : String) (s : Span) : Decidable (s.Shown text) :=
  inferInstanceAs (Decidable (_ ∧ _))

----
-- Columns
----

theorem tabsWithin_take (line : List Char) (n : Nat) :
    ∃ tabs, tabsWithin line (byteLength (line.take n)) = .ok tabs := by
  induction line generalizing n with
  | nil => exact ⟨0, by simp [byteLength, tabsWithin]⟩
  | cons c line ih =>
    cases n with
    | zero => exact ⟨0, by simp [byteLength, tabsWithin]⟩
    | succ n =>
      rcases ih n with ⟨tabs, hRest⟩
      have hBytes : byteLength ((c :: line).take (n + 1)) =
            byteLength (line.take n) + c.utf8Size := by simp [byteLength, Nat.add_comm]
      have hPositive := c.utf8Size_pos
      refine ⟨tabs + if c = '\t' then 1 else 0, ?_⟩
      obtain ⟨k, hSize⟩ : ∃ k, byteLength (line.take n) + c.utf8Size = k + 1 :=
        ⟨byteLength (line.take n) + c.utf8Size - 1, by omega⟩
      have hLess : k + 1 - c.utf8Size = byteLength (line.take n) := by omega
      rw [hBytes, hSize, tabsWithin, if_pos (by omega), hLess, hRest]
      rfl

/- The only fault is a cut inside of a character. -/
theorem tabsWithin_error
    (hRun : tabsWithin line bytes = .error f) : f = .charBoundary := by
  induction line generalizing bytes with
  | nil => cases bytes <;> cases hRun
  | cons c line ih =>
    cases bytes with
    | zero => cases hRun
    | succ bytes =>
      rw [tabsWithin] at hRun
      split at hRun
      · cases hRest : tabsWithin line (bytes + 1 - c.utf8Size) with
        | ok tabs =>
          rw [hRest] at hRun
          cases hRun
        | error f' =>
          rw [hRest] at hRun
          cases hRun
          exact ih hRest
      · cases hRun
        rfl

theorem expandedColumn_between {p : Pos} (hBetween : p.Between text) :
    ∃ col, expandedColumn (lineOf text p.line) p.col = .ok col := by
  rcases hBetween with ⟨n, -, hBytes⟩
  rcases tabsWithin_take (lineOf text p.line) n with ⟨tabs, hTabs⟩
  rw [hBytes] at hTabs
  refine ⟨min p.col (byteLength (lineOf text p.line)) + tabs, ?_⟩
  simp only [expandedColumn, hTabs]
  rfl

theorem expandedColumn_error
    (hRun : expandedColumn line col = .error f) : f = .charBoundary := by
  unfold expandedColumn at hRun
  dsimp only at hRun
  cases hTabs : tabsWithin line (min col (byteLength line)) with
  | ok tabs =>
    rw [hTabs] at hRun
    cases hRun
  | error f' =>
    rw [hTabs] at hRun
    cases hRun
    exact tabsWithin_error hTabs

----
-- Excerpts and reports
----

namespace Log

/- An excerpt fails only at one of the ends of the span. -/
theorem excerpt_cases (colours : Bool) (severity : Severity) (text : String) (s : Span) :
    (∃ shown, excerpt colours severity text s = .ok shown) ∨
      ∃ f, excerpt colours severity text s = .error f ∧
        (expandedColumn (lineOf text s.first.line) s.first.col = .error f ∨
          expandedColumn (lineOf text s.last.line) s.last.col = .error f) := by
  unfold excerpt
  by_cases hStart : s.first.col = 0 ∨ s.last.col = 0
  · rw [if_pos hStart]
    exact .inl ⟨"", rfl⟩
  rw [if_neg hStart]
  cases hFirst : expandedColumn (lineOf text s.first.line) s.first.col with
  | error f =>
    have hSame : expandedColumn ((textLines text)[s.first.line - 1]?.getD [])
          s.first.col = .error f := hFirst
    refine .inr ⟨f, ?_, .inl rfl⟩
    split
    · simp only [hSame]
      rfl
    · simp only [hSame]
      rfl
  | ok c₁ =>
    have hSame : expandedColumn ((textLines text)[s.first.line - 1]?.getD [])
          s.first.col = .ok c₁ := hFirst
    cases hLast : expandedColumn (lineOf text s.last.line) s.last.col with
    | error f =>
      have hSame' : expandedColumn ((textLines text)[s.last.line - 1]?.getD [])
            s.last.col = .error f := hLast
      refine .inr ⟨f, ?_, .inr rfl⟩
      split
      · rename_i hLine
        rw [← hLine] at hSame'
        simp only [hSame, hSame']
        rfl
      · simp only [hSame, hSame']
        rfl
    | ok c₂ =>
      have hSame' : expandedColumn ((textLines text)[s.last.line - 1]?.getD [])
            s.last.col = .ok c₂ := hLast
      refine .inl ?_
      split
      · rename_i hLine
        rw [← hLine] at hSame'
        simp only [hSame, hSame']
        exact ⟨_, rfl⟩
      · simp only [hSame, hSame']
        exact ⟨_, rfl⟩

/- A span between characters has an excerpt. -/
theorem excerpt_error {colours : Bool}
    (hRun : excerpt colours severity text s = .error f) : f = .charBoundary ∧ ¬ s.Shown text := by
  rcases excerpt_cases colours severity text s with ⟨shown, hOk⟩ | ⟨f', hError, hEnds⟩
  · rw [hRun] at hOk
    cases hOk
  · rw [hRun] at hError
    cases hError
    rcases hEnds with hFirst | hLast
    · refine ⟨expandedColumn_error hFirst, fun hShown => ?_⟩
      rcases expandedColumn_between hShown.1 with ⟨col, hOk⟩
      rw [hFirst] at hOk
      cases hOk
    · refine ⟨expandedColumn_error hLast, fun hShown => ?_⟩
      rcases expandedColumn_between hShown.2 with ⟨col, hOk⟩
      rw [hLast] at hOk
      cases hOk

/- What a log tells, and the text that it shows, stays. -/
structure Before (l l' : Log) : Prop where
  source : l'.source = l.source
  errors : l.errors ≤ l'.errors

/-
  A report is written, or its excerpt is cut inside of a
  character of the text that the log knows. It is counted.
-/
theorem report_cases (severity : Severity) (span : Option Span) (message : String) (l : Log) :
    ∃ l' : Log, (report severity span message l = .ok () l' ∨ report severity span message l =
            .error .charBoundary l' ∧ ∃ s ∈ span, ∃ text ∈ l.source, ¬ s.Shown text) ∧
      l'.source = l.source ∧ l'.errors = (l.count severity).errors := by
  have hCount : (l.count severity).source = l.source := by cases severity <;> rfl
  cases span with
  | none => exact ⟨_, .inl rfl, hCount, rfl⟩
  | some s =>
    unfold report
    simp only [modify_bind_run, get_bind_run, set_bind_run, hCount]
    cases hSource : l.source with
    | none => exact ⟨_, .inl rfl, hCount.trans hSource, rfl⟩
    | some text =>
      dsimp only
      cases hExcerpt : excerpt (l.count severity).colours severity text s with
      | ok shown => exact ⟨_, .inl rfl, hCount.trans hSource, rfl⟩
      | error f =>
        rcases excerpt_error hExcerpt with ⟨rfl, hCut⟩
        exact ⟨_, .inr ⟨rfl, s, rfl, text, rfl, hCut⟩, hCount.trans hSource, rfl⟩

end Log

end FortranIR
