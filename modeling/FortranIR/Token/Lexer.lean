import FortranIR.Token

/-
  This file defines the lexer of the text form.

  The input is a list of bytes, each read as the character with
  its code. Every step of the lexer skips blanks and comments,
  and then takes one lexeme. Behind a mistake it goes on at the
  next blank.

  Main declarations:
    * `isBlank`
    * `Cursor.next`
-/

namespace FortranIR

attribute [local instance (10000)] instPowNat

----
-- Character classes
----

def isBlank (c : Char) : Bool := (9 ≤ c.toNat && c.toNat ≤ 13) || c == ' '
    || c.toNat == 0x85 || c.toNat == 0xA0

def isLetter (c : Char) : Bool := ('a' ≤ c && c ≤ 'z') || ('A' ≤ c && c ≤ 'Z')

def isHexDigit (c : Char) : Bool := Decimal.isDigit c || ('a' ≤ c && c ≤ 'f')
    || ('A' ≤ c && c ≤ 'F')

def isNameChar (c : Char) : Bool := isLetter c || Decimal.isDigit c
    || c == '_' || c == '.' || c == '$'

def hexValue (c : Char) : Nat := if Decimal.isDigit c then c.toNat - '0'.toNat
  else if 'a' ≤ c then c.toNat - 'a'.toNat + 10
  else c.toNat - 'A'.toNat + 10

def ofHexDigits (cs : List Char) : Nat := cs.foldl (fun n c => 16 * n + hexValue c) 0

----
-- Cursors
----

/-
  A place in the input: the position of the last character that
  was taken, and the characters behind it.
-/
structure Cursor where
  pos : Pos := {}
  text : List Char
deriving DecidableEq, Repr

namespace Cursor

variable (cur : Cursor)

def peek : Pos := match cur.text with
  | [] => cur.pos
  | c :: _ => cur.pos.advance c

def take (c : Char) (rest : List Char) : Cursor := ⟨cur.pos.advance c, rest⟩

def takeWhile (p : Char → Bool) : List Char × Cursor :=
  let taken := cur.text.takeWhile p
  (taken, ⟨cur.pos.advanceAll taken, cur.text.dropWhile p⟩)

def skipToBlank : Cursor := (cur.takeWhile fun c => !isBlank c).2

/-
  Go past blanks and comments. A comment goes from two slashes
  to the end of the line.
-/
def skipBlanks : Cursor := go false cur.pos cur.text
where
  go (inComment : Bool) (pos : Pos) : List Char → Cursor
    | [] => ⟨pos, []⟩
    | c :: rest =>
      if inComment then
        let ends := c == '\r' || c == '\n'
        go (!ends) (pos.advance c) rest
      else if isBlank c then go false (pos.advance c) rest
      else if c == '/' && rest.head? == some '/' then go true (pos.advance c) rest
      else ⟨pos, c :: rest⟩

----
-- Lexemes
----

/- A mistake, and the place where the lexer goes on. -/
def mistake (span : Span) (message : String) : Lexeme × Cursor :=
  (.mistake span message, cur.skipToBlank)

def token (first : Pos) (kind : TokenKind) : Lexeme × Cursor :=
  (.token ⟨⟨first, cur.pos⟩, kind⟩, cur)

/- The hexadecimal bits of a number, behind `0x`. -/
def nextBits (zero : Span) : Lexeme × Cursor :=
  let (digits, cur) := cur.takeWhile isHexDigit
  let span := if digits = [] then zero else zero.extend cur.pos
  let bits := ofHexDigits digits
  if digits = [] ∨ 2 ^ (64 : Nat) ≤ bits then
    cur.mistake span ("invalid hexadecimal literal '0x" ++ String.ofList digits ++ "'")
  else (.token ⟨span, .float ⟨bits.toUInt64⟩⟩, cur)

/- The points of a number and the digits behind them. -/
def takeFraction : List Char × Cursor := match cur.text with
  | '.' :: _ =>
    let (points, cur) := cur.takeWhile (· == '.')
    let (digits, cur) := cur.takeWhile Decimal.isDigit
    (points ++ digits, cur)
  | _ => ([], cur)

/- The exponent of a number, written with a small letter. -/
def takeExponent : List Char × Cursor := match cur.text with
  | c :: rest =>
    if c = 'e' ∨ c = 'E' then
      let cur := cur.take c rest
      let (sign, cur) :=
        match cur.text with
        | '+' :: rest => (['+'], cur.take '+' rest)
        | '-' :: rest => (['-'], cur.take '-' rest)
        | _ => ([], cur)
      let (digits, cur) := cur.takeWhile Decimal.isDigit
      ('e' :: sign ++ digits, cur)
    else ([], cur)
  | [] => ([], cur)

def readInt? (negative : Bool) (digits : List Char) : Option Int64 :=
  let n := Decimal.ofDigits digits
  if negative then
    if n ≤ 2 ^ (63 : Nat) then some (Int64.ofInt (-n)) else none
  else
    if n < 2 ^ (63 : Nat) then some (Int64.ofInt n) else none

/-
  A number that begins at `first`; a sign has been taken. A
  point or an exponent makes it a float.
-/
def nextNumber (first : Pos) (negative : Bool) : Lexeme × Cursor :=
  let (digits, cur) := cur.takeWhile Decimal.isDigit
  let zero : Span := ⟨first, cur.pos⟩
  let sign := if negative then ['-'] else []
  match negative, digits, cur.text with
  | false, ['0'], 'x' :: rest => (cur.take 'x' rest).nextBits zero
  | _, _, _ =>
    let (fraction, cur) := cur.takeFraction
    let (exponent, cur) := cur.takeExponent
    let numeral := sign ++ digits ++ fraction ++ exponent
    let span := zero.extend cur.pos
    let text := String.ofList numeral
    if fraction = [] ∧ exponent = [] then
      match readInt? negative digits with
      | some n => (.token ⟨span, .int n⟩, cur)
      | none => cur.mistake span s!"invalid integer literal '{text}'"
    else
      match Decimal.read? numeral with
      | some x => (.token ⟨span, .float x⟩, cur)
      | none => cur.mistake span s!"invalid float literal '{text}'"

/- An arrow or a negative number, behind its first character. -/
def nextMinus : Lexeme × Cursor := match cur.text with
  | '>' :: rest => (cur.take '>' rest).token cur.pos .arrow
  | c :: _ =>
    if Decimal.isDigit c then cur.nextNumber cur.pos true
    else cur.mistake (.point cur.pos) "invalid character '-'"
  | [] => cur.mistake (.point cur.pos) "invalid character '-'"

def markedName (mark : Char) (name : String) : TokenKind := if mark = '%' then .value name
  else if mark = '@' then .symbol name
  else if mark = '^' then .block name
  else if mark = '#' then .attr name
  else .dialect name

def nextMarked (mark : Char) : Lexeme × Cursor :=
  let (name, after) := cur.takeWhile isNameChar
  let text := String.ofList (mark :: name)
  if name = [] then after.mistake (.point cur.pos) s!"invalid name '{text}'"
  else after.token cur.pos (markedName mark text)

def shortEscape? (c : Char) : Option UInt8 := if c = 'n' then some 10
  else if c = 't' then some 9
  else if c = '"' then some 34
  else if c = '\\' then some 92
  else none

/-
  The bytes of a string up to its closing quote. A string that
  is not closed in its line, or has a bad escape, ends in a
  message at the last character that belongs to it.
-/
def stringBytes (pos : Pos) (bytes : List UInt8) :
    List Char → Except (String × Cursor) (List UInt8 × Cursor)
  | [] => .error ("string unclosed at end of line", ⟨pos, []⟩)
  | '"' :: rest => .ok (bytes.reverse, ⟨pos.advance '"', rest⟩)
  | '\n' :: rest =>
    .error ("string unclosed at end of line", ⟨pos, '\n' :: rest⟩)
  | '\\' :: rest =>
    let pos := pos.advance '\\'
    match rest with
    | [] => .error ("invalid escape sequence", ⟨pos, []⟩)
    | e :: rest =>
      match shortEscape? e with
      | some b => stringBytes (pos.advance e) (b :: bytes) rest
      | none =>
        if isHexDigit e then
          let pos := pos.advance e
          match rest with
          | [] =>
            .error ("invalid escape '\\" ++ e.toString ++ "'", ⟨pos, []⟩)
          | l :: rest =>
            if isHexDigit l then
              let b := (ofHexDigits [e, l]).toUInt8
              stringBytes (pos.advance l) (b :: bytes) rest
            else .error ("invalid escape '\\" ++ e.toString ++ "'", ⟨pos, l :: rest⟩)
        else .error ("invalid escape sequence", ⟨pos, e :: rest⟩)
  | c :: rest => stringBytes (pos.advance c) (c.toNat.toUInt8 :: bytes) rest

def nextString : Lexeme × Cursor := match stringBytes cur.pos [] cur.text with
  | .error (message, after) => after.mistake ⟨cur.pos, after.pos⟩ message
  | .ok (bytes, after) =>
    match String.fromUTF8? ⟨bytes.toArray⟩ with
    | some s => after.token cur.pos (.str s)
    | none =>
      (.mistake ⟨cur.pos, after.pos⟩ "invalid UTF-8 in string literal", after)

def next : Lexeme × Cursor :=
  let cur := cur.skipBlanks
  match cur.text with
  | [] => cur.token cur.pos .finish
  | c :: rest =>
    let after := cur.take c rest
    if c = '/' then
      after.mistake ⟨after.pos, after.peek⟩ "invalid comment"
    else if c = '"' then
      after.nextString
    else if c = '%' ∨ c = '@' ∨ c = '^' ∨ c = '#' ∨ c = '!' then
      after.nextMarked c
    else if isLetter c ∨ c = '_' then
      let (name, last) := cur.takeWhile isNameChar
      last.token after.pos (.ident (String.ofList name))
    else if c = '-' then
      after.nextMinus
    else if Decimal.isDigit c then
      cur.nextNumber after.pos false
    else
      after.token after.pos (.other c)

end Cursor

----
-- Inputs
----

/-
  The bytes of an input. Reading a broken input fails as soon as
  its last byte has been taken, instead of coming to an end.
-/
structure Input where
  bytes : List UInt8
  broken : Bool := false
deriving DecidableEq, Repr

namespace Input

def ofString (s : String) : Input := { bytes := s.toUTF8.data.toList }

/- The first bytes of an input, behind which reading fails. -/
def failingAfter (input : Input) (n : Nat) : Input := if n ≤ input.bytes.length then
    ⟨input.bytes.take n, true⟩
  else input

def chars (input : Input) : List Char := input.bytes.map fun b => Char.ofNat b.toNat

/-
  At most `fuel` lexemes from a cursor on, up to the end of the
  input.
-/
def lexemesFrom (broken : Bool) : Nat → Cursor → List Lexeme
  | 0, _ => []
  | fuel + 1, cur =>
    let (lexeme, after) := cur.next
    if broken && after.text.isEmpty then [.unreadable]
    else
      match lexeme with
      | .token ⟨_, .finish⟩ => [lexeme]
      | _ => lexeme :: lexemesFrom broken fuel after

/-
  All lexemes of an input. Every lexeme but the end takes a
  character, so there is at most one more of them than there are
  characters.
-/
def lexemes (input : Input) : List Lexeme := lexemesFrom input.broken (input.bytes.length + 1)
    { text := input.chars }

end Input

end FortranIR
