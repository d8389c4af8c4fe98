import Caret.Token.Basic

-- Names of token types. Types up to zero have none. Both tables are indexed by token type.
namespace Caret

structure Vocabulary where
  literals : List (Option String)
  symbols  : List (Option String)
deriving DecidableEq

namespace Vocabulary

def empty : Vocabulary :=
  ⟨[], []⟩

-- The place of a token type in the tables.
def slot? (t : TokenType) : Option Nat :=
  if 0 < t.toInt then some t.toInt.toNat else none

-- The table with exactly `n` places.
def resize (n : Nat) (names : List (Option String)) : List (Option String) :=
  names.take n ++ List.replicate (n - names.length) none

-- Sets both names of a token type. If the table of literals is too short, both tables get as many
-- places as needed, also when that cuts the table of symbols.
def define (v : Vocabulary) (t : TokenType) (literal symbol : Option String) : Vocabulary :=
  match slot? t with
  | none   => v
  | some i =>
    let v : Vocabulary :=
      if v.literals.length ≤ i
      then ⟨resize (i + 1) v.literals, resize (i + 1) v.symbols⟩
      else v
    ⟨v.literals.set i literal, v.symbols.set i symbol⟩

variable (v : Vocabulary)

def literal? (t : TokenType) : Option String := do
  let i ← slot? t
  let name ← v.literals[i]?
  name

def symbol? (t : TokenType) : Option String := do
  let i ← slot? t
  let name ← v.symbols[i]?
  name

-- The literal, or else the symbol, or else the number of a token type.
def displayName (t : TokenType) : String :=
  if t = .eof then "<EOF>"
  else if t = .epsilon then "<EPSILON>"
  else ((v.literal? t <|> v.symbol? t)).getD (toString t.toInt)

-- The first token type with that literal, or else with that symbol.
def typeOf? (name : String) : Option TokenType := do
  let i ← v.literals.findIdx? (· == some name) <|> v.symbols.findIdx? (· == some name)
  if i ≤ Int32.maxValue.toInt.toNat then some (Int32.ofNat i) else none

-- The largest token type that the table of literals has a place for.
def maxType : TokenType :=
  Int32.ofNat (min (v.literals.length - 1) Int32.maxValue.toInt.toNat)

end Vocabulary
end Caret
