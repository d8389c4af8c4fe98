import Caret.Document.Basic
import Caret.Serial.Json

-- JSON forms of positions, lines and changes.
namespace Caret

open Serial

instance : Serial Position where
  encode p := .obj [("line", encode p.line), ("character", encode p.character)]
  decode j := do
    let [line, character] ← record? [required "line", required "character"] j | none
    return ⟨← decode line, ← decode character⟩

instance : Serial TextRange where
  encode r := .obj [("start", encode r.start), ("end", encode r.stop)]
  decode j := do
    let [start, stop] ← record? [required "start", required "end"] j | none
    return ⟨← decode start, ← decode stop⟩

instance : Serial Newline where
  encode
    | .cr   => .str "Cr"
    | .lf   => .str "Lf"
    | .crlf => .str "CrLf"
  decode := variant? [("Cr", .cr), ("Lf", .lf), ("CrLf", .crlf)]

instance : Serial LineRegion where
  encode r := .obj [("offset", encode r.offset), ("length", encode r.length)]
  decode j := do
    let [offset, length] ← record? [required "offset", required "length"] j | none
    return ⟨← decode offset, ← decode length⟩

instance : Serial Change where
  encode c := .obj [("range", encode c.range), ("text", encode c.text)]
  decode j := do
    let [range, text] ← record? [optional "range", required "text"] j | none
    return ⟨← decode range, ← decode text⟩

end Caret
