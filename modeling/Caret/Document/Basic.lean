import Caret.Document.Snapshot

-- Open documents. The text of a document and the index of its lines are edited together. A batch of
-- changes comes with a newer version and is applied as a whole: every change leaves an entry that
-- takes it back, and when a change fails the entries of those before it are played backwards.
namespace Caret

inductive ChangeError
  | line (e : LineError)
  | staleVersion (current received : Int32)
  | invalidRange (start stop : Nat)
deriving DecidableEq

def ChangeError.message : ChangeError → String
  | line e                        => e.message
  | staleVersion current received =>
    "Stale change event: current version " ++ toString current.toInt ++
      ", received " ++ toString received.toInt
  | invalidRange start stop       =>
    s!"Invalid range: end offset {stop} precedes start offset {start}"

-- A new text for a range, or for the whole document if there is no range.
structure Change where
  range : Option TextRange
  text  : String
deriving DecidableEq

-- What a change can alter.
structure Content where
  text    : String
  lines   : LineIndex
  isAscii : Bool

namespace Content

def ofText (text : String) : Content where
  text    := text
  lines   := .ofText text
  isAscii := isAsciiText text

-- How a change is taken back.
inductive Undo
  | replace (offset length : Nat) (text : String) (isAscii : Bool)
  | restore (content : Content)

-- Replaces `length` characters from an offset on, in the text and in the index or in neither.
def replace (c : Content) (offset length : Nat) (inserted : String) :
    Except LineError (Content × Undo) := do
  let start := byteOffset? c.text c.isAscii offset
  let stop  := byteOffset? c.text c.isAscii (offset + length)
  let lines ← c.lines.replace offset length inserted
  let (text, removed) :=
    match start, stop with
    | some start, some stop =>
      (spliceBytes c.text start stop inserted, sliceBytes c.text start stop)
    | _, _ => (c.text, "")
  let isAscii := c.isAscii && isAsciiText inserted
  return (⟨text, lines, isAscii⟩, .replace offset inserted.length removed c.isAscii)

-- Takes a change back.
def undo (c : Content) : Undo → Content
  | .restore old                        => old
  | .replace offset length text isAscii =>
    match c.replace offset length text with
    | .ok (c, _) => { c with isAscii }
    | .error _   => { c with isAscii }

def change (c : Content) (change : Change) : Except ChangeError (Content × Undo) :=
  match change.range with
  | none       => .ok (ofText change.text, .restore c)
  | some range => do
    let start ← (c.lines.offsetOf range.start).mapError .line
    let stop  ← (c.lines.offsetOf range.stop).mapError .line
    if stop < start
    then .error (.invalidRange start stop)
    else (c.replace start (stop - start) change.text).mapError .line

-- Applies changes one after the other. `journal` takes back what has been applied so far, latest
-- first; it is played when a change fails.
def changeAll (c : Content) (journal : List Undo) : List Change → Content × Option ChangeError
  | []      => (c, none)
  | x :: xs =>
    match c.change x with
    | .ok (c, u) => changeAll c (u :: journal) xs
    | .error e   => (journal.foldl undo c, some e)

end Content

structure Document where
  uri      : String
  language : String
  version  : Int32
  content  : Content

namespace Document

def ofText (uri language : String) (version : Int32) (text : String) : Document where
  uri      := uri
  language := language
  version  := version
  content  := .ofText text

variable (d : Document)

def text : String :=
  d.content.text

def lines : LineIndex :=
  d.content.lines

def snapshot : Snapshot where
  uri      := d.uri
  language := d.language
  version  := d.version
  text     := d.content.text
  lines    := d.content.lines
  isAscii  := d.content.isAscii

-- Sets the whole text and keeps the version.
def setText (text : String) : Document :=
  { d with content := .ofText text }

-- Replaces `length` characters from an offset on and keeps the version.
def replace (offset length : Nat) (text : String) : Document × Option LineError :=
  match d.content.replace offset length text with
  | .ok (content, _) => ({ d with content }, none)
  | .error e         => (d, some e)

-- Applies all changes and takes over the version, or takes everything back.
def apply (version : Int32) (changes : List Change) : Document × Option ChangeError :=
  if version ≤ d.version then (d, some <| .staleVersion d.version version) else
    match d.content.changeAll [] changes with
    | (content, none)   => ({ d with content, version }, none)
    | (content, some e) => ({ d with content }, some e)

end Document
end Caret
