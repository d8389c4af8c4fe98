import Caret.Document.Basic
import Caret.Proofs.Line.Queries
import Caret.Proofs.Text.Bytes

-- A document without an index: a version and the characters of the text. Positions are resolved by
-- splitting the characters into lines, and a change cuts and joins lists.
namespace Caret

structure PlainDocument where
  version : Int32
  chars   : List Char

namespace PlainDocument

-- The offset at which a line starts. One line past a last line that is not empty starts at the end.
def lineStart? (cs : List Char) (line : Nat) : Option Nat :=
  let lines := splitLines cs
  if line < lines.length then some (Line.totalLength (lines.take line))
  else if line = lines.length ∧ lines.getLast?.any (0 < ·.length) then some cs.length
  else none

-- The offset of a position, if it can be addressed.
def offsetOf? (cs : List Char) (p : Position) : Option Nat := do
  let start ← lineStart? cs p.line
  if start + p.character ≤ maxOffset then some (start + p.character) else none

def change? (cs : List Char) (change : Change) : Option (List Char) :=
  match change.range with
  | none       => some change.text.toList
  | some range => do
    let start ← offsetOf? cs range.start
    let stop  ← offsetOf? cs range.stop
    if stop < start then none else spliceChars? cs start (stop - start) change.text.toList

-- Every change sees the characters that the one before has left.
def changeAll? (cs : List Char) : List Change → Option (List Char)
  | []      => some cs
  | x :: xs => do
    let cs ← change? cs x
    changeAll? cs xs

variable (d : PlainDocument)

def setText (text : String) : PlainDocument :=
  { d with chars := text.toList }

def replace (offset length : Nat) (text : String) : PlainDocument :=
  { d with chars := (spliceChars? d.chars offset length text.toList).getD d.chars }

def apply (version : Int32) (changes : List Change) : PlainDocument :=
  if version ≤ d.version then d else
    match changeAll? d.chars changes with
    | some chars => { version, chars }
    | none       => d

end PlainDocument

namespace LineIndex.Tracks

variable {ix : LineIndex} {cs : List Char}

theorem region_eq (h : ix.Tracks cs) (line : Nat) :
    ((ix.region line).map (·.offset)).toOption = PlainDocument.lineStart? cs line := by
  have ht := totalLength_splitLines cs
  rcases Nat.lt_trichotomy line (splitLines cs).length with hlt | rfl | hgt
  · obtain ⟨a, x, b, he, rfl⟩ := Line.exists_parts hlt
    replace h : ix.Holds (a ++ x :: b) := he ▸ h
    simp [PlainDocument.lineStart?, he, h.region_eq, Except.map, Except.toOption]
  · obtain ⟨a, n, he, _⟩ := exists_splitLines cs
    replace h : ix.Holds (a ++ [⟨n, none⟩]) := he ▸ h
    rw [he] at ht
    have hp := h.region_past
    simp only [ht] at hp
    by_cases hn : 0 < n
    all_goals simp [PlainDocument.lineStart?, he, hp, hn, Except.map, Except.toOption]
  · have hne : ¬(line = (splitLines cs).length ∧ (splitLines cs).getLast?.any (0 < ·.length)) := by
      omega
    rw [Holds.region_error h hgt, PlainDocument.lineStart?, if_neg hgt.not_gt, if_neg hne]
    rfl

theorem offsetOf_eq (h : ix.Tracks cs) (p : Position) :
    (ix.offsetOf p).toOption = PlainDocument.offsetOf? cs p := by
  rw [PlainDocument.offsetOf?, ← h.region_eq p.line, LineIndex.offsetOf]
  cases ix.region p.line
  case error e => rfl
  case ok r =>
    by_cases hm : r.offset + p.character ≤ maxOffset
    all_goals simp [hm, bind, Except.bind, Except.map, Except.toOption]

end LineIndex.Tracks

namespace Content

-- The text, its index and the flag belong to the given characters.
structure Tracks (c : Content) (cs : List Char) : Prop where
  text  : c.text.toList = cs
  lines : c.lines.Tracks cs
  ascii : c.isAscii → isAsciiText c.text

variable {c : Content} {cs cs' : List Char} {offset length : Nat} {text : String}

theorem tracks_ofText (text : String) : (ofText text).Tracks text.toList where
  text  := rfl
  lines := LineIndex.tracks_ofText text
  ascii := id

-- A replacement in the bounds of the text is made in the text and in the index. What it removes is
-- kept in the entry that takes it back.
theorem Tracks.replace_some (h : c.Tracks cs)
    (hs : spliceChars? cs offset length text.toList = some cs') :
    ∃ c' removed,
      c.replace offset length text = .ok (c', .replace offset text.length removed c.isAscii) ∧
      c'.Tracks cs' ∧ spliceChars? cs' offset text.length removed.toList = some cs := by
  have ⟨p, d, q, hc, ho, hl, hc'⟩ := spliceChars?_eq_some.mp hs
  subst hc ho hl hc'
  have ⟨ix', hr, hi⟩ := h.lines.replace_some hs
  have hstart := byteOffset?_eq h.text h.ascii
  have hstop := byteOffset?_eq (p := p ++ d) (q := q) (by simpa using h.text) h.ascii
  rw [List.length_append, String.utf8Len_append] at hstop
  have hnew := spliceBytes_eq h.text text
  have hold := sliceBytes_eq h.text
  refine ⟨⟨spliceBytes c.text (String.utf8Len p) (String.utf8Len p + String.utf8Len d) text, ix',
    c.isAscii && isAsciiText text⟩,
    sliceBytes c.text (String.utf8Len p) (String.utf8Len p + String.utf8Len d),
    ?_, ⟨hnew, hi, ?_⟩, ?_⟩
  · simp only [replace, hstart, hstop, hr, bind, Except.bind, pure, Except.pure]
  · intro ha
    have ⟨ha₁, ha₂⟩ := Bool.and_eq_true_iff.mp ha
    have ha₃ := h.ascii ha₁
    simp only [isAsciiText, hnew, h.text, List.all_append, Bool.and_eq_true] at ha₂ ha₃ ⊢
    exact ⟨ha₃.left, ha₂, ha₃.right.right⟩
  · rw [hold]
    exact spliceChars?_eq_some.mpr ⟨p, text.toList, q, rfl, rfl, String.length_toList.symm, rfl⟩

theorem Tracks.replace_none (h : c.Tracks cs)
    (hs : spliceChars? cs offset length text.toList = none) :
    ∃ e, c.replace offset length text = .error e := by
  have ⟨e, he⟩ := h.lines.replace_none hs
  exact ⟨e, by simp [replace, he, bind, Except.bind]⟩

end Content

end Caret
