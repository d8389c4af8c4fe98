import Caret.Text.Position

-- Tokens with their place in the source.
namespace Caret

abbrev TokenType := Int32

namespace TokenType

-- The end of the source.
def eof : TokenType := -1

-- No token at all: stands for the end of a rule among the tokens that a rule can begin with.
def epsilon : TokenType := -2

-- A piece of the source that is no token.
def invalid : TokenType := 0

-- The least type that a grammar can give to its tokens.
def firstUser : TokenType := 1

end TokenType

structure Token where
  type   : TokenType
  text   : String
  start  : Nat
  line   : Nat
  column : Nat
deriving DecidableEq

namespace Token

def eof (start line column : Nat) : Token :=
  ⟨.eof, "", start, line, column⟩

def isEof (t : Token) : Bool :=
  t.type = .eof

-- The offset after the token.
def stop (t : Token) : Nat :=
  t.start + t.text.length

def position (t : Token) : Position :=
  ⟨t.line, t.column⟩

end Token
end Caret
