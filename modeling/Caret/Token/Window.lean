import Caret.Token.Basic

-- The tokens up to a caret. The last one stands at the caret.
namespace Caret

structure Window where
  tokens   : List Token
  nonempty : tokens ≠ []

namespace Window

-- Falls back to a single end-of-source token.
def ofTokens (tokens : List Token) (eof : Token) : Window :=
  match tokens with
  | []      => ⟨[eof], by simp⟩
  | t :: ts => ⟨t :: ts, by simp⟩

-- The tokens up to the one with the index `caret`.
def upToIndex (tokens : List Token) (caret : Nat) : Window :=
  ofTokens (tokens.take (caret + 1)) (.eof 0 0 0)

-- The tokens up to and including the first one that passes a test.
def throughFirst (p : Token → Bool) : List Token → List Token
  | []      => []
  | t :: ts => if p t then [t] else t :: throughFirst p ts

-- A token ends the window if it starts at or after the caret, or ends the source.
def closes (caret : Position) (t : Token) : Bool :=
  t.isEof || caret ≤ t.position

-- The tokens from the index `start` on, up to the first at or after the caret.
def upToPosition (tokens : List Token) (start : Nat) (caret : Position) : Window :=
  ofTokens (throughFirst (closes caret) (tokens.drop start)) (.eof 0 caret.line caret.character)

variable (w : Window)

def size : Nat :=
  w.tokens.length

-- The index of the token at the caret.
def caret : Nat :=
  w.tokens.length - 1

def types : List TokenType :=
  w.tokens.map Token.type

-- Beyond the window there is only the end of the source.
def typeAt (i : Nat) : TokenType :=
  (w.tokens[i]?.map Token.type).getD .eof

end Window
end Caret
