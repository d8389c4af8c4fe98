-- A digest of a text in 64 bits. Equal texts have equal digests; different texts have different
-- ones but for rare collisions.
--
-- The bytes of the text run through two lanes, sixteen at a time. The bytes at the end, which may
-- overlap the last block, are put into the lanes before these are multiplied.
namespace Caret.Digest

-- The bytes as one number, the lowest first.
def word (bytes : List UInt8) : UInt64 :=
  bytes.foldr (fun b w => w <<< 8 ||| b.toUInt64) 0

-- The two halves of the full product, laid over each other.
def foldedMul (x y : UInt64) : UInt64 :=
  let product := x.toNat * y.toNat
  .ofNat product ^^^ .ofNat (product / UInt64.size)

structure Lanes where
  fst : UInt64
  snd : UInt64
deriving DecidableEq

namespace Lanes

-- Digits of π.
def initial : Lanes :=
  ⟨0x243f6a8885a308d3, 0x13198a2e03707344⟩

-- Takes in a block of sixteen bytes, and exchanges the lanes.
def mix (l : Lanes) (block : List UInt8) : Lanes :=
  ⟨l.snd, foldedMul (l.fst ^^^ word (block.take 8)) (0xa4093822299f31d0 ^^^ word (block.drop 8))⟩

-- Takes in blocks as long as more than one is left.
def mixAll (l : Lanes) (bytes : List UInt8) : Lanes :=
  if 16 < bytes.length
  then (l.mix (bytes.take 16)).mixAll (bytes.drop 16)
  else l
termination_by bytes.length
decreasing_by simp only [List.length_drop]; omega

end Lanes

-- What goes into the lanes last: up to sixteen bytes, in short texts some of them twice.
def ends (bytes : List UInt8) : Lanes :=
  match bytes with
  | []        => ⟨0, 0⟩
  | [a]       => ⟨word [a], word [a, a]⟩
  | [a, b]    => ⟨word [a], word [b, b]⟩
  | [a, b, c] => ⟨word [a], word [b, c]⟩
  | _         =>
    let width := if bytes.length < 8 then 4 else 8
    let tail  := bytes.drop (bytes.length - 16)
    ⟨word (tail.take width), word (tail.drop (tail.length - width))⟩

def ofBytes (bytes : List UInt8) : UInt64 :=
  let lanes := Lanes.initial.mixAll bytes
  let last  := ends bytes
  foldedMul (lanes.fst ^^^ last.fst) (lanes.snd ^^^ last.snd) ^^^ .ofNat bytes.length

-- Takes in one more number.
def scramble (digest value : UInt64) : UInt64 :=
  (digest + value) * 0xf1357aea2e62a9c5

-- Moves the high bits, which depend on most of the input, to the low end.
def turn (digest : UInt64) : UInt64 :=
  digest <<< 26 ||| digest >>> 38

-- The digest of a text. A byte that no text contains marks the end.
def ofText (text : String) : UInt64 :=
  turn (scramble (scramble 0 (ofBytes text.toUTF8.data.toList)) 0xff)

end Caret.Digest
