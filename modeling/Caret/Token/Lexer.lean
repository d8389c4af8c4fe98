import Caret.Token.Basic
import Caret.Token.Pattern

-- Lexers cut a source into lexemes. At each place the longest match counts, and of equally long
-- ones the first rule. Where nothing matches, what some pattern could still have been the beginning
-- of is taken as one invalid lexeme, and at least one character.
namespace Caret

-- A piece of a source between two byte offsets, and what it is. What is invalid is nothing.
structure Lexeme (α : Type) where
  start : Nat
  stop  : Nat
  kind  : Option α
deriving DecidableEq

-- Rules in order of precedence, each with what it recognises.
structure Lexer (α : Type) where
  rules : List (Pattern × α)

namespace Lexer

variable {α : Type}

-- The longer of two matches, the first of equally long ones.
def longer (a b : Option (Nat × α)) : Option (Nat × α) :=
  match a, b with
  | none, _                  => b
  | some _, none             => a
  | some (n, _), some (m, _) => if n < m then b else a

variable (lexer : Lexer α)

-- The length and kind of the longest match at the beginning of a text.
def match? (text : List Char) : Option (Nat × α) :=
  lexer.rules.foldl (fun best (p, kind) => longer best ((p.length? text).map (·, kind))) none

-- The length and kind of the first lexeme of a text.
def first (text : List Char) : Nat × Option α :=
  match lexer.match? text with
  | some (n + 1, kind) => (n + 1, some kind)
  | _                  => ((lexer.rules.map fun (p, _) => p.reach text).foldl max 1, none)

theorem one_le_foldl_max (ns : List Nat) (n : Nat) (h : 1 ≤ n) : 1 ≤ ns.foldl max n := by
  induction ns generalizing n with
  | nil         => exact h
  | cons m _ ih => exact ih _ (Nat.le_trans h (Nat.le_max_left ..))

theorem one_le_first (text : List Char) : 1 ≤ (lexer.first text).1 := by
  unfold first
  split
  · exact Nat.le_add_left ..
  · exact one_le_foldl_max _ _ (Nat.le_refl _)

-- The lexemes of a text whose first character has the given byte offset.
def lexemesFrom (lexer : Lexer α) (offset : Nat) : List Char → List (Lexeme α)
  | []      => []
  | c :: cs =>
    let first := lexer.first (c :: cs)
    let stop := offset + (String.ofList ((c :: cs).take first.1)).utf8ByteSize
    ⟨offset, stop, first.2⟩ :: lexemesFrom lexer stop ((c :: cs).drop first.1)
termination_by text => text.length
decreasing_by
  have := lexer.one_le_first (c :: cs)
  simp only [List.length_drop, List.length_cons]
  omega

def lexemes (source : String) : List (Lexeme α) :=
  lexer.lexemesFrom 0 source.toList

end Lexer
end Caret
