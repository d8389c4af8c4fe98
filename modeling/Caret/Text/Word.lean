import Caret.Text.WordChar

-- Words in a line, for any notion of word character.
namespace Caret

-- The bounds of the word that covers index `i`: its first index and the one after its last.
def wordAround? (isWord : Char → Bool) (chars : List Char) (i : Nat) : Option (Nat × Nat) :=
  if chars[i]?.any isWord
  then some (
    i - ((chars.take i).reverse.takeWhile isWord).length,
    i + ((chars.drop i).takeWhile isWord).length)
  else none

-- The word at a caret: the one after it, or else the one that ends at it.
def wordAtCaret? (isWord : Char → Bool) (chars : List Char) (caret : Nat) : Option (Nat × Nat) :=
  wordAround? isWord chars caret <|>
    match caret with
    | 0     => none
    | i + 1 => wordAround? isWord chars i

end Caret
