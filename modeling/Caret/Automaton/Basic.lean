import Caret.Interval.Set
import Caret.Text.Digest
import Caret.Token.Vocabulary

-- Grammar automata. Every rule has a start and a stop state. A transition consumes a token, or
-- moves on without one: freely, on a condition, or by a call of another rule, after which the walk
-- goes on in the follow state of the call.
--
-- An automaton that was read from elsewhere may be any graph: transitions may lead nowhere, and a
-- call may aim at any state.
namespace Caret

abbrev StateId := Nat
abbrev RuleIndex := Nat
abbrev PredicateId := UInt32

-- Tells automata apart. The highest bit is set if the identity comes from a name.
structure AutomatonId where
  raw : UInt64
deriving DecidableEq

namespace AutomatonId

def nameBit : UInt64 :=
  0x8000000000000000

-- Equal names give equal identities.
def ofName (name : String) : AutomatonId :=
  ⟨Digest.ofText name ||| nameBit⟩

-- The identity of an automaton without a name, by a number that no other one has.
def ofSerial (n : UInt64) : AutomatonId :=
  ⟨n &&& ~~~nameBit⟩

def isNamed (id : AutomatonId) : Bool :=
  id.raw &&& nameBit != 0

end AutomatonId

inductive StateKind
  | basic
  | ruleStart
  | ruleStop
  | blockStart
  | blockEnd
  | loopEntry
  | loopBack
  | loopEnd
deriving DecidableEq

inductive Label
  | epsilon
  | atom (type : TokenType)
  | set (types : IntervalSet)
  | notSet (types : IntervalSet)
  | wildcard
  | rule (index : RuleIndex) (follow : StateId)
  | predicate (id : PredicateId)
deriving DecidableEq

namespace Label

-- The label consumes no token.
def isEpsilon : Label → Bool
  | epsilon | rule .. | predicate _ => true
  | _                               => false

-- The token types that an atom, a set or the complement of a set stands for.
def matchSet? (maxType : TokenType) : Label → Option IntervalSet
  | atom type    => some (.singleton type)
  | set types    => some types
  | notSet types => some (types.complement TokenType.firstUser maxType)
  | _            => none

-- The largest token type that the label names.
def largest? : Label → Option TokenType
  | atom type                => some type
  | set types | notSet types => types.intervals.getLast?.map Interval.stop
  | _                        => none

end Label

structure Transition where
  target : StateId
  label  : Label
deriving DecidableEq

structure State where
  id          : StateId
  kind        : StateKind
  rule        : RuleIndex
  transitions : List Transition
deriving DecidableEq

def State.isStop (s : State) : Bool :=
  s.kind = .ruleStop

structure Rule where
  name  : String
  start : StateId
  stop  : StateId
deriving DecidableEq

structure Automaton where
  id         : AutomatonId
  states     : List State
  rules      : List Rule
  vocabulary : Vocabulary
  maxType    : TokenType
deriving DecidableEq

namespace Automaton

variable (a : Automaton)

def state? (id : StateId) : Option State :=
  a.states[id]?

def ruleStart? (rule : RuleIndex) : Option StateId :=
  a.rules[rule]?.map Rule.start

def ruleStop? (rule : RuleIndex) : Option StateId :=
  a.rules[rule]?.map Rule.stop

def ruleName? (rule : RuleIndex) : Option String :=
  a.rules[rule]?.map Rule.name

-- The first rule of that name.
def findRule? (name : String) : Option RuleIndex :=
  a.rules.findIdx? (·.name == name)

-- All token types that a grammar can use.
def userTypes : IntervalSet :=
  .ofRange TokenType.firstUser a.maxType

end Automaton
end Caret
