import Caret.Token.Lexer

-- The lexers of three small languages. Their rules recognise token types; a match of a rule without
-- a type is dropped.
namespace Caret.Lexer

def isAsciiLetter (c : Char) : Bool :=
  'a' ≤ c && c ≤ 'z' || 'A' ≤ c && c ≤ 'Z'

def isDigit (c : Char) : Bool :=
  '0' ≤ c && c ≤ '9'

def isIdentifierStart (c : Char) : Bool :=
  isAsciiLetter c || c == '_'

def isUmlaut (c : Char) : Bool :=
  c == 'ä' || c == 'ö' || c == 'ü'

def oneOf (chars : String) (c : Char) : Bool :=
  chars.toList.contains c

def noneOf (chars : String) (c : Char) : Bool :=
  !oneOf chars c

-- State machines: keywords, arrows, blocks, identifiers, comments up to the end of the line.
def machine : Lexer (Option TokenType) where
  rules := [
    (.run (oneOf " \t\r\n"), none),
    (.literal "state", some 1),
    (.literal "on", some 2),
    (.literal "->", some 3),
    (.literal ";", some 4),
    (.literal "\x7b", some 5),
    (.literal "\x7d", some 6),
    (.word isIdentifierStart (fun c => isIdentifierStart c || isDigit c), some 7),
    (⟨[.one (· == '/'), .one (· == '/'), .many (noneOf "\n")]⟩, none)]

-- Single statements whose identifiers may have umlauts; newlines are dropped.
def unit : Lexer (Option TokenType) where
  rules := [
    (.run (oneOf " \t"), none),
    (.literal "state", some 1),
    (.word (fun c => isIdentifierStart c || isUmlaut c)
      (fun c => isIdentifierStart c || isUmlaut c || isDigit c), some 2),
    (.literal ";", some 3),
    (.literal "\r\n", none),
    (.literal "\r", none),
    (.literal "\n", none)]

-- Words, blocks in angle brackets that may span lines, and each newline character by itself.
def block : Lexer (Option TokenType) where
  rules := [
    (.run (· == ' '), none),
    (.run fun c => 'a' ≤ c && c ≤ 'z', some 1),
    (⟨[.one (· == '<'), .many (noneOf "<>"), .one (· == '>')]⟩, some 2),
    (.literal "\r", some 3),
    (.literal "\n", some 4),
    (.run isDigit, none)]

end Caret.Lexer
