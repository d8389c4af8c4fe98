import Caret.Line.Edit
import Caret.Text.Utf8
import Caret.Text.Word

-- A document at one version: its text, the index of its lines, and questions about positions, text
-- and words. `isAscii` promises that the text is ASCII; it may be unset for an ASCII text.
namespace Caret

structure Snapshot where
  uri      : String
  language : String
  version  : Int32
  text     : String
  lines    : LineIndex
  isAscii  : Bool

namespace Snapshot

def ofText (uri language : String) (version : Int32) (text : String) : Snapshot where
  uri      := uri
  language := language
  version  := version
  text     := text
  lines    := .ofText text
  isAscii  := isAsciiText text

-- A text that is no version of any document.
def anonymous (text : String) : Snapshot :=
  ofText "" "" 0 text

variable (s : Snapshot)

def length : Nat :=
  s.lines.length

def isEmpty : Bool :=
  s.text.isEmpty

def lineCount : Nat :=
  s.lines.lineCount

def offsetAt (p : Position) : Except LineError Nat :=
  s.lines.offsetOf p

def positionInBounds (p : Position) : Bool :=
  match s.offsetAt p with
  | .ok offset => offset < s.length
  | .error _   => false

def charAt (offset : Nat) : Except LineError Char :=
  match charAt? s.text s.isAscii offset with
  | some c => .ok c
  | none   => .error (.offsetOutOfBounds offset s.length)

def charAtPosition (p : Position) : Except LineError Char := do
  s.charAt (← s.offsetAt p)

def positionAt (offset : Nat) : Except LineError Position := do
  let line  ← s.lines.lineOfOffset offset
  let start ← s.lines.lineOffset line
  return ⟨line, offset - start⟩

-- The range of `length` characters from an offset on, cut at the end of the text.
def rangeOf (offset length : Nat) : Except LineError TextRange := do
  let start ← s.positionAt offset
  let stop  ← s.positionAt (min (offset + length) s.length)
  return ⟨start, stop⟩

-- The nearest position before the newline of a line that exists.
def validate (p : Position) : Position :=
  let line := min p.line (s.lineCount - 1)
  let length :=
    match s.lines.region line with
    | .ok r    => r.length
    | .error _ => 0
  ⟨line, min p.character length⟩

-- `length` characters from an offset on.
def textIn (offset length : Nat) : Except LineError String :=
  let stop := offset + length
  if maxOffset < stop then .error (.offsetOutOfBounds maxOffset s.length) else
    match byteOffset? s.text s.isAscii offset, byteOffset? s.text s.isAscii stop with
    | some start, some stop => .ok (sliceBytes s.text start stop)
    | some _, none          => .error (.offsetOutOfBounds stop s.length)
    | none, _               => .error (.offsetOutOfBounds offset s.length)

-- A line without its newline.
def lineText (line : Nat) : Except LineError String := do
  let r ← s.lines.region line
  s.textIn r.offset r.length

-- How the first line ends; a line feed if it is the only one.
def defaultNewline : Newline :=
  match s.lines.lineNewline 0 with
  | .ok (some newline) => newline
  | _                  => .lf

-- The word at a position and its range.
def wordAt (isWord : Char → Bool) (p : Position) : Option (TextRange × String) := do
  let line ← (s.lineText p.line).toOption
  let (start, stop) ← wordAtCaret? isWord line.toList p.character
  let r ← (s.lines.region p.line).toOption
  let word ← (s.textIn (r.offset + start) (stop - start)).toOption
  return (⟨⟨p.line, start⟩, ⟨p.line, stop⟩⟩, word)

end Snapshot
end Caret
