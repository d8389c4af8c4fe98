-- Patterns of characters: sequences of single characters and runs. A run takes as many characters
-- as it can and gives none back, so what stands after a run must not begin with a character of the
-- run.
namespace Caret

inductive Pattern.Part
  | one (p : Char → Bool)
  | many (p : Char → Bool)

structure Pattern where
  parts : List Pattern.Part

namespace Pattern

def literal (text : String) : Pattern :=
  ⟨text.toList.map fun c => .one (· == c)⟩

-- At least one character.
def run (p : Char → Bool) : Pattern :=
  ⟨[.one p, .many p]⟩

def word (head tail : Char → Bool) : Pattern :=
  ⟨[.one head, .many tail]⟩

-- Follows the parts as far as possible: the characters taken, and whether all parts were met.
def scan : List Part → List Char → Nat × Bool
  | [], _                 => (0, true)
  | .one _ :: _, []       => (0, false)
  | .one p :: ps, c :: cs =>
    if p c then
      let (n, complete) := scan ps cs
      (n + 1, complete)
    else (0, false)
  | .many p :: ps, cs     =>
    let k := (cs.takeWhile p).length
    let (n, complete) := scan ps (cs.drop k)
    (k + n, complete)

-- The number of characters of a text that the pattern matches.
def length? (p : Pattern) (text : List Char) : Option Nat :=
  match scan p.parts text with
  | (n, true)  => some n
  | (_, false) => none

-- The number of characters of a text up to which the pattern can still match.
def reach (p : Pattern) (text : List Char) : Nat :=
  (scan p.parts text).1

end Pattern
end Caret
