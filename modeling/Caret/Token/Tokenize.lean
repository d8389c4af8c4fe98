import Caret.Line.Index
import Caret.Text.Utf8
import Caret.Token.Lexer

-- Tokens of a source from its lexemes. Since lexemes come in the order of the source, one pass over
-- its bytes is enough to count characters, and one pass over its lines to find lines and columns.
namespace Caret

-- A place in a list of lines: a line by its number and offset, and the lines after it.
structure LineCursor where
  line  : Nat
  start : Nat
  ahead : List LineInfo

namespace LineCursor

def ofLines : List LineInfo → LineCursor
  | []      => ⟨0, 0, []⟩
  | l :: ls => ⟨0, l.offset, ls⟩

-- Moves on to the last line that does not start after an offset.
def seek (offset line start : Nat) : List LineInfo → LineCursor
  | []      => ⟨line, start, []⟩
  | l :: ls =>
    if l.offset ≤ offset then seek offset (line + 1) l.offset ls else ⟨line, start, l :: ls⟩

def advance (c : LineCursor) (offset : Nat) : LineCursor :=
  seek offset c.line c.start c.ahead

def position (c : LineCursor) (offset : Nat) : Position :=
  ⟨c.line, offset - c.start⟩

end LineCursor

-- A place in a source: how many bytes and how many characters come before it.
structure SourceCursor where
  bytes : Nat
  chars : Nat

-- Moves on to a byte offset and counts the characters up to it.
def SourceCursor.advance (c : SourceCursor) (source : String) (offset : Nat) : SourceCursor where
  bytes := offset
  chars := c.chars + (sliceBytes source c.bytes offset).length

variable {α : Type}

-- The type of the token that a lexeme gives, unless it is dropped. What is invalid is kept.
def Lexeme.type? (classify : α → Option TokenType) (l : Lexeme α) : Option TokenType :=
  match l.kind with
  | some kind => classify kind
  | none      => some .invalid

-- Tokens for lexemes that come after two cursors, closed by the end of the source.
def placeTokens (classify : α → Option TokenType) (source : String) (c : SourceCursor)
    (lines : LineCursor) : List (Lexeme α) → List Token
  | []      =>
    let c := c.advance source source.utf8ByteSize
    let p := (lines.advance c.chars).position c.chars
    [.eof c.chars p.line p.character]
  | l :: ls =>
    let c := c.advance source l.start
    match l.type? classify with
    | none      => placeTokens classify source c lines ls
    | some type =>
      let lines := lines.advance c.chars
      let p := lines.position c.chars
      let text := sliceBytes source l.start l.stop
      ⟨type, text, c.chars, p.line, p.character⟩ :: placeTokens classify source c lines ls

-- The tokens of a source. `classify` gives what was recognised a type, or drops it.
def tokenizeBy (classify : α → Option TokenType) (source : String) (lexemes : List (Lexeme α)) :
    List Token :=
  placeTokens classify source ⟨0, 0⟩ (.ofLines (LineIndex.ofText source).lines) lexemes

-- The tokens of a source whose lexemes come with their types.
def tokenize (source : String) (lexemes : List (Lexeme (Option TokenType))) : List Token :=
  tokenizeBy id source lexemes

end Caret
