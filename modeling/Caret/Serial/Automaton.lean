import Caret.Automaton.Basic
import Caret.Serial.Json

-- JSON forms of token types, tokens and automata. Intervals are taken as they are written.
namespace Caret

open Serial

instance : Serial Interval where
  encode i := .obj [("start", encode i.start), ("end", encode i.stop)]
  decode j := do
    let [start, stop] ← record? [required "start", required "end"] j | none
    return ⟨← decode start, ← decode stop⟩

instance : Serial IntervalSet where
  encode s := .obj [("intervals", encode s.intervals)]
  decode j := do
    let [intervals] ← record? [required "intervals"] j | none
    return ⟨← decode intervals⟩

instance : Serial Token where
  encode t := .obj [
    ("token_type", encode t.type), ("text", encode t.text), ("start", encode t.start),
    ("line", encode t.line), ("column", encode t.column)]
  decode j := do
    let [type, text, start, line, column] ← record? [
      required "token_type", required "text", required "start", required "line",
      required "column"] j | none
    return ⟨← decode type, ← decode text, ← decode start, ← decode line, ← decode column⟩

instance : Serial Vocabulary where
  encode v := .obj [("literal_names", encode v.literals), ("symbolic_names", encode v.symbols)]
  decode j := do
    let [literals, symbols] ←
      record? [required "literal_names", required "symbolic_names"] j | none
    return ⟨← decode literals, ← decode symbols⟩

instance : Serial StateKind where
  encode
    | .basic      => .str "Basic"
    | .ruleStart  => .str "RuleStart"
    | .ruleStop   => .str "RuleStop"
    | .blockStart => .str "BlockStart"
    | .blockEnd   => .str "BlockEnd"
    | .loopEntry  => .str "LoopEntry"
    | .loopBack   => .str "LoopBack"
    | .loopEnd    => .str "LoopEnd"
  decode := variant? [
    ("Basic", .basic), ("RuleStart", .ruleStart), ("RuleStop", .ruleStop),
    ("BlockStart", .blockStart), ("BlockEnd", .blockEnd), ("LoopEntry", .loopEntry),
    ("LoopBack", .loopBack), ("LoopEnd", .loopEnd)]

instance : Serial Label where
  encode
    | .epsilon           => .str "Epsilon"
    | .atom type         => .obj [("Atom", encode type)]
    | .set types         => .obj [("Set", encode types)]
    | .notSet types      => .obj [("NotSet", encode types)]
    | .wildcard          => .str "Wildcard"
    | .rule index follow =>
      .obj [("Rule", .obj [("rule_index", encode index), ("follow_state", encode follow)])]
    | .predicate id      => .obj [("Predicate", encode id)]
  decode
    | .obj [("Atom", j)]      => (decode j).map .atom
    | .obj [("Set", j)]       => (decode j).map .set
    | .obj [("NotSet", j)]    => (decode j).map .notSet
    | .obj [("Predicate", j)] => (decode j).map .predicate
    | .obj [("Rule", j)]      => do
      let [index, follow] ← object? [required "rule_index", required "follow_state"] j | none
      return .rule (← decode index) (← decode follow)
    | j => variant? [("Epsilon", .epsilon), ("Wildcard", .wildcard)] j

instance : Serial Transition where
  encode t := .obj [("target", encode t.target), ("kind", encode t.label)]
  decode j := do
    let [target, label] ← record? [required "target", required "kind"] j | none
    return ⟨← decode target, ← decode label⟩

instance : Serial State where
  encode s := .obj [
    ("id", encode s.id), ("kind", encode s.kind), ("rule_index", encode s.rule),
    ("transitions", encode s.transitions)]
  decode j := do
    let [id, kind, rule, transitions] ← record? [
      required "id", required "kind", required "rule_index", required "transitions"] j | none
    return ⟨← decode id, ← decode kind, ← decode rule, ← decode transitions⟩

instance : Serial Rule where
  encode r := .obj [("name", encode r.name), ("start", encode r.start), ("stop", encode r.stop)]
  decode j := do
    let [name, start, stop] ←
      record? [required "name", required "start", required "stop"] j | none
    return ⟨← decode name, ← decode start, ← decode stop⟩

instance : Serial AutomatonId where
  encode id := encode id.raw
  decode j  := (decode j).map AutomatonId.mk

instance : Serial Automaton where
  encode a := .obj [
    ("id", encode a.id), ("states", encode a.states), ("rules", encode a.rules),
    ("vocabulary", encode a.vocabulary), ("max_token_type", encode a.maxType)]
  decode j := do
    let [id, states, rules, vocabulary, maxType] ← record? [
      required "id", required "states", required "rules", required "vocabulary",
      required "max_token_type"] j | none
    return ⟨← decode id, ← decode states, ← decode rules, ← decode vocabulary, ← decode maxType⟩

end Caret
