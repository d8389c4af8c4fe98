import Caret.Completion.Candidates
import Caret.Serial.Json

-- JSON forms of candidates and settings.
namespace Caret

open Serial

instance : Serial Candidates where
  encode c := .obj [
    ("tokens", encodeMap Int32.toInt c.tokens),
    ("rules", encodeMap Int.ofNat c.rules)]
  decode j := do
    let [tokens, rules] ← record? [required "tokens", required "rules"] j | none
    return ⟨← decodeMap tokens, ← decodeMap rules⟩

-- Both lists are read as sets.
instance : Serial Settings where
  encode s := .obj [
    ("ignored_tokens", encode s.ignored), ("preferred_rules", encode s.preferred)]
  decode j := do
    let [ignored, preferred] ←
      record? [required "ignored_tokens", required "preferred_rules"] j | none
    let ignored : List TokenType ← decode ignored
    let preferred : List RuleIndex ← decode preferred
    return (Settings.empty.ignoreAll ignored).preferAll preferred

end Caret
