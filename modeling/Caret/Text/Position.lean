-- Positions in a text as line and character, and ranges between two positions.
namespace Caret

-- The largest offset that can be addressed.
def maxOffset : Nat :=
  UInt64.size - 1

structure Position where
  line      : Nat
  character : Nat
deriving DecidableEq

namespace Position

-- Positions are ordered by line, then by character.
instance : LE Position where
  le p q := p.line < q.line ∨ p.line = q.line ∧ p.character ≤ q.character

instance : LT Position where
  lt p q := p.line < q.line ∨ p.line = q.line ∧ p.character < q.character

instance (p q : Position) : Decidable (p ≤ q) :=
  inferInstanceAs (Decidable (_ ∨ _))

instance (p q : Position) : Decidable (p < q) :=
  inferInstanceAs (Decidable (_ ∨ _))

theorem le_def {p q : Position} :
    p ≤ q ↔ p.line < q.line ∨ p.line = q.line ∧ p.character ≤ q.character :=
  Iff.rfl

theorem lt_def {p q : Position} :
    p < q ↔ p.line < q.line ∨ p.line = q.line ∧ p.character < q.character :=
  Iff.rfl

def sort (ps : List Position) : List Position :=
  ps.mergeSort fun p q => p ≤ q

end Position

structure TextRange where
  start : Position
  stop  : Position
deriving DecidableEq

namespace TextRange

def empty (p : Position) : TextRange :=
  ⟨p, p⟩

def isEmpty (r : TextRange) : Bool :=
  r.start = r.stop

-- Both ends belong to the range.
instance : Membership Position TextRange where
  mem r p := r.start ≤ p ∧ p ≤ r.stop

instance (r : TextRange) (p : Position) : Decidable (p ∈ r) :=
  inferInstanceAs (Decidable (_ ∧ _))

end TextRange
end Caret
