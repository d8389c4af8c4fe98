-- Where characters lie in the bytes of a text. In an ASCII text every character is one byte, so an
-- index is a byte offset; otherwise the sizes of the characters before it are added up.
namespace Caret

def isAsciiText (text : String) : Bool :=
  text.toList.all (·.val < 128)

-- The byte offset of the character at an index; the index after the last character counts.
def bytesBefore? : List Char → (index : Nat) → Option Nat
  | _, 0           => some 0
  | [], _ + 1      => none
  | c :: cs, i + 1 => (bytesBefore? cs i).map (c.utf8Size + ·)

-- As `bytesBefore?`, without a look at the characters if the text is known to be ASCII.
def byteOffset? (text : String) (isAscii : Bool) (index : Nat) : Option Nat :=
  if isAscii
  then if index ≤ text.utf8ByteSize then some index else none
  else bytesBefore? text.toList index

-- The part of a text between two byte offsets.
def sliceBytes (text : String) (start stop : Nat) : String :=
  String.Pos.Raw.extract text ⟨start⟩ ⟨stop⟩

-- The text with the part between two byte offsets replaced.
def spliceBytes (text : String) (start stop : Nat) (inserted : String) : String :=
  sliceBytes text 0 start ++ inserted ++ sliceBytes text stop text.utf8ByteSize

-- The character at an index.
def charAt? (text : String) (isAscii : Bool) (index : Nat) : Option Char :=
  if isAscii
  then String.Pos.Raw.get? text ⟨index⟩
  else text.toList[index]?

end Caret
