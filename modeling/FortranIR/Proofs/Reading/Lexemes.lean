import FortranIR.Proofs.Reading.Progress
import FortranIR.Token.Lexer

/-
  This file shows what the lexemes of an input are like: there is
  an end, it comes last, and every token stands in one line.

  A step of the lexer that finds something takes at least one
  character of it. So the number of characters bounds the number
  of steps, and the last lexeme is the end of the input, or tells
  that it can not be read.

  Main declarations:
    * `Cursor.Stays`
    * `Input.complete_lexemes`
-/

namespace FortranIR

variable {cur : Cursor} {first : Pos}

----
-- Positions
----

namespace Pos

theorem advance_line (p : Pos) (hLine : c ≠ '\n') : (p.advance c).line = p.line := by
  unfold advance
  rw [if_neg hLine]

theorem advanceAll_line (p : Pos) (hLine : '\n' ∉ cs) :
    (p.advanceAll cs).line = p.line := by
  induction cs generalizing p with
  | nil => rfl
  | cons c cs ih =>
    rw [List.mem_cons, not_or] at hLine
    exact (ih (p.advance c) hLine.2).trans (p.advance_line (Ne.symm hLine.1))

end Pos

namespace Cursor

theorem skipBlanks_go_length (inComment : Bool) (pos : Pos) (cs : List Char) :
    (skipBlanks.go inComment pos cs).text.length ≤ cs.length := by
  induction cs generalizing inComment pos with
  | nil => exact .refl
  | cons c cs ih =>
    unfold skipBlanks.go
    split
    · exact Nat.le_succ_of_le (ih _ _)
    · split
      · exact Nat.le_succ_of_le (ih _ _)
      · split
        · exact Nat.le_succ_of_le (ih _ _)
        · exact .refl

theorem skipBlanks_length (cur : Cursor) : cur.skipBlanks.text.length ≤ cur.text.length :=
  skipBlanks_go_length false cur.pos cur.text

/- A cursor goes on in the same line. -/
structure Stays (cur after : Cursor) : Prop where
  line : after.pos.line = cur.pos.line
  length : after.text.length ≤ cur.text.length

theorem Stays.refl (cur : Cursor) : cur.Stays cur := ⟨rfl, .refl⟩

theorem Stays.trans {cur₁ : Cursor} (hFirst : cur₁.Stays cur₂)
    (hSecond : cur₂.Stays cur₃) : cur₁.Stays cur₃ :=
  ⟨hSecond.line.trans hFirst.line, Nat.le_trans hSecond.length hFirst.length⟩

theorem take_stays (hText : cur.text = c :: rest) (hLine : c ≠ '\n') :
    cur.Stays (cur.take c rest) := by
  refine ⟨cur.pos.advance_line hLine, ?_⟩
  rw [hText]
  exact Nat.le_succ _

theorem takeWhile_stays (cur : Cursor) (hLine : p '\n' = false) :
    cur.Stays (cur.takeWhile p).2 := by
  refine ⟨cur.pos.advanceAll_line fun hMember => ?_, (List.dropWhile_sublist p).length_le⟩
  have hClass := List.all_eq_true.mp List.all_takeWhile _ hMember
  rw [hClass] at hLine
  cases hLine

/- A character of the class is taken. -/
theorem takeWhile_cons_length (hText : cur.text = c :: rest) (hClass : p c = true) :
    (cur.takeWhile p).2.text.length ≤ rest.length := by
  change (cur.text.dropWhile p).length ≤ _
  rw [hText, List.dropWhile_cons_of_pos hClass]
  exact (List.dropWhile_sublist p).length_le

----
-- Steps of the lexer
----

/-
  A step of the lexer that finds something leaves at most `n`
  characters, and a token that it finds stands in one line.
-/
def Takes (n : Nat) : Lexeme × Cursor → Prop
  | (.token t, after) =>
    t.kind ≠ .finish ∧ t.span.first.line = t.span.last.line ∧ after.text.length ≤ n
  | (.mistake _ _, after) => after.text.length ≤ n
  | (.unreadable, _) => False

theorem mistake_takes (span : Span) (message : String) (hLength : cur.text.length ≤ n) :
    Takes n (cur.mistake span message) := Nat.le_trans (List.dropWhile_sublist _).length_le hLength

theorem token_takes (hKind : kind ≠ .finish) (hLine : cur.pos.line = first.line)
    (hLength : cur.text.length ≤ n) : Takes n (cur.token first kind) := ⟨hKind, hLine.symm, hLength⟩

theorem markedName_ne_finish (mark : Char) (name : String) : markedName mark name ≠ .finish := by
  unfold markedName
  repeat' split
  all_goals exact nofun

theorem nextMarked_takes (mark : Char) (hLength : cur.text.length ≤ n) :
    Takes n (cur.nextMarked mark) := by
  have hStays := cur.takeWhile_stays (p := isNameChar) rfl
  have hRest := Nat.le_trans hStays.length hLength
  unfold nextMarked
  dsimp only
  split
  · exact mistake_takes _ _ hRest
  · exact token_takes (markedName_ne_finish _ _) hStays.line hRest

theorem nextBits_takes (hLine : zero.last.line = zero.first.line)
    (hSame : cur.pos.line = zero.first.line) (hLength : cur.text.length ≤ n) :
    Takes n (cur.nextBits zero) := by
  have hStays := cur.takeWhile_stays (p := isHexDigit) rfl
  have hRest := Nat.le_trans hStays.length hLength
  unfold nextBits
  dsimp only
  split
  · exact mistake_takes _ _ hRest
  · refine ⟨nofun, ?_, hRest⟩
    split
    · exact hLine.symm
    · exact (hStays.line.trans hSame).symm

theorem takeFraction_stays (cur : Cursor) : cur.Stays cur.takeFraction.2 := by
  unfold takeFraction
  split
  · have hPoints := cur.takeWhile_stays (p := (· == '.')) rfl
    exact hPoints.trans (takeWhile_stays _ rfl)
  · exact .refl cur

theorem takeExponent_stays (cur : Cursor) : cur.Stays cur.takeExponent.2 := by
  unfold takeExponent
  split
  · rename_i c rest hText
    split
    · rename_i hLetter
      have hLine : c ≠ '\n' := by rcases hLetter with rfl | rfl <;> decide
      have hTaken := take_stays hText hLine
      dsimp only
      split
      · rename_i rest' hSign
        have hSigned := take_stays hSign (by decide)
        exact (hTaken.trans hSigned).trans (takeWhile_stays _ rfl)
      · rename_i rest' hSign
        have hSigned := take_stays hSign (by decide)
        exact (hTaken.trans hSigned).trans (takeWhile_stays _ rfl)
      · exact hTaken.trans (takeWhile_stays _ rfl)
    · exact .refl cur
  · exact .refl cur

/- A number, if its first digit leaves few enough characters. -/
theorem nextNumber_takes (hLine : cur.pos.line = first.line) (hLength :
      (cur.takeWhile Decimal.isDigit).2.text.length ≤ n) :
    Takes n (cur.nextNumber first negative) := by
  have hStays := cur.takeWhile_stays (p := Decimal.isDigit) rfl
  have hDigits := hStays.line.trans hLine
  unfold nextNumber
  dsimp only
  split
  · rename_i rest _ _ hText
    have hTaken := take_stays hText (by decide)
    exact nextBits_takes hDigits (hTaken.line.trans hDigits) (Nat.le_trans hTaken.length hLength)
  · have hNumeral := ((cur.takeWhile Decimal.isDigit).2.takeFraction_stays).trans
        (takeExponent_stays _)
    have hEnd := hNumeral.line.trans hDigits
    have hRest := Nat.le_trans hNumeral.length hLength
    split
    all_goals
      split
      · exact ⟨nofun, hEnd.symm, hRest⟩
      · exact mistake_takes _ _ hRest

theorem nextMinus_takes (hLength : cur.text.length ≤ n) : Takes n cur.nextMinus := by
  unfold nextMinus
  split
  · rename_i rest hText
    have hTaken := take_stays hText (by decide)
    exact token_takes nofun hTaken.line (Nat.le_trans hTaken.length hLength)
  · split
    · exact nextNumber_takes rfl (Nat.le_trans (cur.takeWhile_stays rfl).length hLength)
    · exact mistake_takes _ _ hLength
  · exact mistake_takes _ _ hLength

/-
  The bytes of a string end in the line where they begin, or with
  a mistake behind some of them.
-/
def StringEnds (cur : Cursor) : Except (String × Cursor) (List UInt8 × Cursor) → Prop
  | .ok (_, after) => cur.Stays after
  | .error (_, after) => after.text.length ≤ cur.text.length

theorem StringEnds.after
    (hStays : cur.Stays cur') (hEnds : cur'.StringEnds result) : cur.StringEnds result := by
  cases result with
  | ok found => exact hStays.trans hEnds
  | error found => exact Nat.le_trans hEnds hStays.length

theorem ne_newline_of_escape (hEscape : shortEscape? c ≠ none ∨ isHexDigit c = true) :
    c ≠ '\n' := by
  rintro rfl
  revert hEscape
  decide

theorem stringBytes_ends (pos : Pos) (bytes : List UInt8) (cs : List Char) :
    StringEnds ⟨pos, cs⟩ (stringBytes pos bytes cs) := by
  fun_induction stringBytes pos bytes cs with
  | case1 pos _ => exact .refl
  | case2 pos _ rest => exact take_stays rfl (by decide)
  | case3 pos _ rest => exact .refl
  | case4 _ _ => exact Nat.le_succ _
  | case5 pos bytes _ e rest b hEscape ih =>
    have hSlash : Stays ⟨pos, '\\' :: e :: rest⟩ _ := take_stays rfl (by decide)
    have hLetter := hSlash.trans (take_stays rfl (ne_newline_of_escape (.inl (by simp [hEscape]))))
    exact .after hLetter ih
  | case6 pos _ => exact Nat.zero_le _
  | case7 pos bytes _ e _ hHigh _ l rest hLow b ih =>
    have hSlash : Stays ⟨pos, '\\' :: e :: l :: rest⟩ _ := take_stays rfl (by decide)
    have hFirst := hSlash.trans (take_stays rfl (ne_newline_of_escape (.inr hHigh)))
    have hSecond := hFirst.trans (take_stays rfl (ne_newline_of_escape (.inr hLow)))
    exact .after hSecond ih
  | case8 pos _ => exact Nat.le_trans (Nat.le_succ _) (Nat.le_succ _)
  | case9 _ _ => exact Nat.le_succ _
  | case10 pos bytes c rest _ hLine _ ih => exact .after (take_stays rfl hLine) ih

theorem nextString_takes (hLength : cur.text.length ≤ n) : Takes n cur.nextString := by
  have hString := stringBytes_ends cur.pos [] cur.text
  unfold nextString
  split
  · rename_i message after hRun
    rw [hRun] at hString
    exact mistake_takes _ _ (Nat.le_trans hString hLength)
  · rename_i bytes after hRun
    rw [hRun] at hString
    have hRest := Nat.le_trans hString.length hLength
    split
    · exact token_takes nofun hString.line hRest
    · exact hRest

/-
  A step that comes to something takes a character, and the end
  is found only if there is nothing left.
-/
theorem next_takes (cur : Cursor) : (∃ p after, cur.next = (.token ⟨.point p, .finish⟩, after)) ∨
      ∃ k < cur.text.length, Takes k cur.next := by
  have hSkipped := cur.skipBlanks_length
  unfold next
  dsimp only
  split
  · exact .inl ⟨_, _, rfl⟩
  · rename_i c rest hText
    rw [hText] at hSkipped
    refine .inr ⟨rest.length, hSkipped, ?_⟩
    have hRest : (cur.skipBlanks.take c rest).text.length ≤ rest.length := .refl
    split
    · exact mistake_takes _ _ hRest
    · split
      · exact nextString_takes hRest
      · split
        · exact nextMarked_takes c hRest
        · split
          · rename_i hLetter
            have hClass : isNameChar c = true := by
              unfold isNameChar
              rcases hLetter with hLetter | rfl
              · simp [hLetter]
              · rfl
            have hLine : c ≠ '\n' := by
              rintro rfl
              cases hClass
            exact token_takes nofun ((takeWhile_stays _ rfl).line.trans
                (take_stays hText hLine).line.symm) (takeWhile_cons_length hText hClass)
          · split
            · exact nextMinus_takes hRest
            · split
              · rename_i hDigit
                have hLine : c ≠ '\n' := by
                  rintro rfl
                  cases hDigit
                exact nextNumber_takes (take_stays hText hLine).line.symm
                  (takeWhile_cons_length hText hDigit)
              · exact token_takes nofun rfl hRest

end Cursor

----
-- Lexemes of an input
----

namespace Input

/- The lexemes have an end, and tokens do not reach over lines. -/
structure Complete (lexemes : List Lexeme) : Prop where
  ends : ∀ k, k ≠ .finish → EndsBehind k lexemes
  lines : ∀ t, .token t ∈ lexemes → t.span.sameLine t.span = true

theorem complete_cons
    (hTakes : Cursor.Takes n (x, after)) (hRest : Complete rest) : Complete (x :: rest) := by
  cases x with
  | token t =>
    rcases hTakes with ⟨hKind, hLine, -⟩
    refine ⟨fun k hMore => ⟨hMore, hRest.ends _ hKind⟩, ?_⟩
    intro t' hMember
    rcases List.mem_cons.mp hMember with hFirst | hLater
    · cases hFirst
      exact beq_iff_eq.mpr hLine.symm
    · exact hRest.lines t' hLater
  | mistake =>
    refine ⟨fun k hMore => ⟨hMore, hRest.ends k hMore⟩, ?_⟩
    intro t' hMember
    exact hRest.lines t' ((List.mem_cons.mp hMember).resolve_left nofun)
  | unreadable => exact hTakes.elim

theorem complete_lexemesFrom {broken : Bool} (hFuel : cur.text.length < fuel) :
    Complete (lexemesFrom broken fuel cur) := by
  induction fuel generalizing cur with
  | zero => omega
  | succ fuel ih =>
    unfold lexemesFrom
    rcases hNext : cur.next with ⟨x, after⟩
    have hTakes := cur.next_takes
    rw [hNext] at hTakes
    dsimp only
    split
    · exact ⟨fun k hMore => ⟨hMore, rfl⟩, by simp⟩
    · split
      · refine ⟨fun k hMore => ⟨hMore, rfl⟩, ?_⟩
        rcases hTakes with ⟨p, after', hEnd⟩ | ⟨k, -, hOther⟩
        · intro t hMember
          cases List.mem_singleton.mp hMember
          cases hEnd
          exact beq_self_eq_true _
        · exact absurd rfl hOther.1
      · rename_i hMore
        rcases hTakes with ⟨p, after', hEnd⟩ | ⟨k, hLess, hTakes⟩
        · cases hEnd
          exact absurd rfl (hMore _)
        · refine complete_cons hTakes (ih ?_)
          have hLeft : after.text.length ≤ k := by
            cases x with
            | token t => exact hTakes.2.2
            | mistake => exact hTakes
            | unreadable => exact hTakes.elim
          omega

theorem complete_lexemes (input : Input) : Complete input.lexemes := by
  apply complete_lexemesFrom
  simp [chars]

end Input

end FortranIR
