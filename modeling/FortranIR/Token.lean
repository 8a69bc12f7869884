import FortranIR.Location
import FortranIR.Number.Decimal
import FortranIR.Text.Quoted

/-
  This file defines the tokens of the text form.

  Main declarations:
    * `TokenKind`
    * `Lexeme`
-/

namespace FortranIR

/-
  The kinds of tokens. Names of values, symbols, blocks,
  attributes and types keep the character that marks them.
-/
inductive TokenKind where
  | int (value : Int64)
  | float (value : Binary64)
  | str (text : String)
  | ident (name : String)
  | value (name : String)
  | symbol (name : String)
  | block (name : String)
  | attr (name : String)
  | dialect (name : String)
  | arrow
  | other (c : Char)
  | finish
deriving DecidableEq, Repr

namespace TokenKind

def describe : TokenKind → String
  | int n => s!"integer '{n}'"
  | float x => "float '" ++ x.render ++ "'"
  | str s => "string " ++ Text.quoted s
  | ident s => s!"identifier '{s}'"
  | value s => s!"value '{s}'"
  | symbol s => s!"symbol '{s}'"
  | block s => s!"block '{s}'"
  | attr s => s!"attribute '{s}'"
  | dialect s => s!"type '{s}'"
  | arrow => "'->'"
  | other c => s!"character '{c}'"
  | finish => "end of file"

end TokenKind

structure Token where
  span : Span := {}
  kind : TokenKind := .finish
deriving DecidableEq, Repr

/-
  What a step of the lexer finds: a token, a mistake at a span,
  or an input that can not be read any further.
-/
inductive Lexeme where
  | token (t : Token)
  | mistake (span : Span) (message : String)
  | unreadable
deriving DecidableEq, Repr

end FortranIR
