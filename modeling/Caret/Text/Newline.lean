-- Newlines and the lines between them. A carriage return and a line feed in a row are one newline.
namespace Caret

inductive Newline
  | cr
  | lf
  | crlf
deriving DecidableEq

namespace Newline

def all : List Newline :=
  [cr, lf, crlf]

def chars : Newline → List Char
  | cr   => ['\r']
  | lf   => ['\n']
  | crlf => ['\r', '\n']

def text (n : Newline) : String :=
  .ofList n.chars

def length (n : Newline) : Nat :=
  n.chars.length

-- The newline that a text starts with.
def atStart? : List Char → Option Newline
  | '\r' :: '\n' :: _ => some crlf
  | '\r' :: _         => some cr
  | '\n' :: _         => some lf
  | _                 => none

-- A newline with the index of its first character.
structure Match where
  index   : Nat
  newline : Newline
deriving DecidableEq

-- The index after the newline.
def Match.stop (m : Match) : Nat :=
  m.index + m.newline.length

-- The first newline of a text.
def first? : List Char → Option Match
  | []      => none
  | c :: cs =>
    match atStart? (c :: cs) with
    | some n => some ⟨0, n⟩
    | none   => (first? cs).map fun m => { m with index := m.index + 1 }

-- The first newline at or after index `start`.
def next? (text : List Char) (start : Nat) : Option Match :=
  (first? <| text.drop start).map fun m => { m with index := m.index + start }

theorem length_pos (newline : Newline) : 0 < newline.length := by
  cases newline <;> decide

theorem atStart?_length {cs : List Char} {n : Newline} (h : atStart? cs = some n) :
    n.length ≤ cs.length := by
  unfold atStart? at h
  split at h <;> cases h <;> simp [length, chars]

theorem first?_stop_le {cs : List Char} {m : Match} (h : first? cs = some m) :
    m.stop ≤ cs.length := by
  induction cs generalizing m
  case nil => contradiction
  case cons c cs hi =>
    unfold first? at h
    split at h
    case h_1 n hn =>
      cases h
      simpa [Match.stop] using atStart?_length hn
    case h_2 =>
      obtain ⟨m, hm, rfl⟩ := Option.map_eq_some_iff.mp h
      have hle := hi hm
      simp only [Match.stop, List.length_cons] at hle ⊢
      omega

-- The search gets on.
theorem next?_bounds {cs : List Char} {start : Nat} {m : Match} (h : next? cs start = some m) :
    start < m.stop ∧ m.stop ≤ cs.length := by
  obtain ⟨m, hm, rfl⟩ := Option.map_eq_some_iff.mp h
  have hle := first?_stop_le hm
  have hpos := m.newline.length_pos
  simp only [Match.stop, List.length_drop] at hle ⊢
  omega

end Newline

-- A line by its length, newline included, and the newline that ends it.
structure Line where
  length  : Nat
  newline : Option Newline
deriving DecidableEq

-- The length without the newline.
def Line.pureLength (l : Line) : Nat :=
  l.length - (l.newline.map Newline.length).getD 0

def Line.totalLength (lines : List Line) : Nat :=
  lines.foldr (·.length + ·) 0

-- The lines of a text. The last one, possibly empty, has no newline.
def splitLines : List Char → List Line
  | []                 => [⟨0, none⟩]
  | '\r' :: '\n' :: cs => ⟨2, some .crlf⟩ :: splitLines cs
  | '\r' :: cs         => ⟨1, some .cr⟩ :: splitLines cs
  | '\n' :: cs         => ⟨1, some .lf⟩ :: splitLines cs
  | _ :: cs            => (splitLines cs).modifyHead fun l => { l with length := l.length + 1 }

end Caret
