import Caret.Completion.Candidates
import Caret.Token.Window

-- The walk through an automaton along the tokens before a caret. It follows every way through the
-- start rule and the rules it calls. Whatever can stand at the caret becomes a candidate.
--
-- A rule entered before the caret is walked once per token index: its end indices are remembered,
-- also while it is still being walked, when none is known yet. This cuts left recursion short.
namespace Caret

-- What is read at a caret: an automaton, the tokens up to the caret, the predicates that hold.
structure Reading where
  automaton : Automaton
  tokens    : List TokenType
  caret     : Nat
  -- Whether a predicate lets the walk pass.
  holds     : PredicateId → Bool

-- The end indices of rules by rule and token index; the latest entry counts.
abbrev Memo := List ((RuleIndex × Nat) × List Nat)

-- What a walk carries along: the end indices that are known, and the rules that are being called.
structure Progress where
  memo  : Memo
  stack : List RuleIndex

namespace Progress

def empty : Progress :=
  ⟨[], []⟩

variable (g : Progress)

def ends? (rule : RuleIndex) (index : Nat) : Option (List Nat) :=
  g.memo.lookup (rule, index)

def remember (rule : RuleIndex) (index : Nat) (ends : List Nat) : Progress :=
  { g with memo := ((rule, index), ends) :: g.memo }

def push (rule : RuleIndex) : Progress :=
  { g with stack := g.stack ++ [rule] }

def pop : Progress :=
  { g with stack := g.stack.dropLast }

end Progress

-- A state to be visited with the token of that index next.
structure Place where
  state : StateId
  index : Nat
deriving DecidableEq

-- What a request carries along.
structure Session extends Progress where
  cache           : FirstSetCache
  candidates      : Candidates
  statesProcessed : Nat
  asked           : List PredicateId

namespace Session

def start (cache : FirstSetCache) : Session where
  toProgress      := .empty
  cache           := cache
  candidates      := .empty
  statesProcessed := 0
  asked           := []

variable (x : Session)

def push (rule : RuleIndex) : Session :=
  { x with toProgress := x.toProgress.push rule }

def pop : Session :=
  { x with toProgress := x.toProgress.pop }

def remember (rule : RuleIndex) (index : Nat) (ends : List Nat) : Session :=
  { x with toProgress := x.toProgress.remember rule index ends }

-- What can come first from a state on.
def consult (a : Automaton) (start : StateId) : FirstSets × Session :=
  let (first, cache) := x.cache.getOrCompute a start
  (first, { x with cache })

def visit : Session :=
  { x with statesProcessed := x.statesProcessed + 1 }

def ask (id : PredicateId) : Session :=
  { x with asked := x.asked ++ [id] }

end Session

-- Why a walk could not go on.
inductive Fault
  -- A token was asked for that is not there.
  | outside (index : Nat)
  -- A bound of the walk was reached.
  | cutShort

-- Enters a rule by its start state at a token index, and gives the indices at which it can end.
abbrev Entry := StateId → Nat → Session → Except Fault (List Nat × Session)

-- Adds an end index unless it is there.
def addEnd (ends : List Nat) (index : Nat) : List Nat :=
  if index ∈ ends then ends else ends ++ [index]

-- The next place with a state that exists and that has not been visited, and those after it.
def Reading.nextPlace? (x : Reading) (visited : List Place) :
    List Place → Option (Place × State × List Place)
  | []      => none
  | p :: ps =>
    if p ∈ visited then x.nextPlace? visited ps else
      match x.automaton.state? p.state with
      | none   => x.nextPlace? visited ps
      | some s => some (p, s, ps)

-- What is asked for at a caret.
structure Request extends Reading where
  settings : Settings

namespace Request

variable (r : Request)

def token (index : Nat) : Except Fault TokenType :=
  match r.tokens[index]? with
  | none      => .error (.outside index)
  | some type => .ok type

-- The rule can neither be empty nor begin with the token.
def rejects (first : FirstSets) (index : Nat) : Except Fault Bool := do
  if first.combined.contains TokenType.epsilon then return false
  return !first.combined.contains (← r.token index)

def offer (symbols : IntervalSet) (following : List TokenType) (x : Session) : Session :=
  { x with candidates := x.candidates.offer r.settings x.stack symbols following }

-- Follows a transition that does not call a rule.
def move (current : TokenType) (index : Nat) (t : Transition) (x : Session) :
    List Place × Session :=
  match t.label with
  | .rule _ _     => ([], x)
  | .predicate id => (if r.holds id then [⟨t.target, index⟩] else [], x.ask id)
  | .epsilon      =>
    let candidates := x.candidates.addPreferred r.settings x.stack
    ([⟨t.target, index⟩], if r.caret ≤ index then { x with candidates } else x)
  | .wildcard     =>
    if r.caret ≤ index
    then ([], r.offer r.automaton.userTypes [] x)
    else ([⟨t.target, index + 1⟩], x)
  | .atom _ | .set _ | .notSet _ =>
    match t.label.matchSet? r.automaton.maxType with
    | none         => ([], x)
    | some symbols =>
      if symbols.isEmpty then ([], x)
      else if r.caret ≤ index then ([], r.offer symbols (r.automaton.forcedAfter t) x)
      else (if symbols.contains current then [⟨t.target, index + 1⟩] else [], x)

-- Follows a transition.
def take (enter : Entry) (current : TokenType) (index : Nat) (t : Transition) (x : Session) :
    Except Fault (List Place × Session) :=
  match t.label with
  | .rule _ follow => do
    let (ends, x) ← enter t.target index x
    return (ends.map (⟨follow, ·⟩), x)
  | _ => return r.move current index t x

-- Follows transitions from left to right.
def takeAll (enter : Entry) (current : TokenType) (index : Nat) :
    List Transition → Session → Except Fault (List Place × Session)
  | [], x      => return ([], x)
  | t :: ts, x => do
    let (places, x) ← r.take enter current index t x
    let (rest, x)   ← takeAll enter current index ts x
    return (places ++ rest, x)

-- Visits places until none is left; the place found last is visited first. `fresh` bounds the
-- number of places not yet visited.
def walkPlaces (enter : Entry) : (fresh : Nat) → (pending visited : List Place) →
    (ends : List Nat) → Session → Except Fault (List Nat × Session)
  | 0, pending, visited, ends, x         =>
    match r.nextPlace? visited pending with
    | none   => return (ends, x)
    | some _ => .error .cutShort
  | fresh + 1, pending, visited, ends, x =>
    match r.nextPlace? visited pending with
    | none              => return (ends, x)
    | some (p, s, rest) => do
      let current ← r.token p.index
      if s.isStop then
        walkPlaces enter fresh rest (p :: visited) (addEnd ends p.index) x.visit
      else
        let (places, x) ← r.takeAll enter current p.index s.transitions x.visit
        walkPlaces enter fresh (places.reverse ++ rest) (p :: visited) ends x

-- Walks a rule from its start state on.
def walkRule (enter : Entry) (start : StateId) (index : Nat) (x : Session) :
    Except Fault (List Nat × Session) :=
  let places := r.automaton.states.length * (r.caret + 1)
  r.walkPlaces enter places [⟨start, index⟩] [] [] x

-- Enters a rule by its start state at a token index. The rule is on the stack while it is walked.
-- `depth` bounds the number of rules that can be entered inside one another.
def enterRule : (depth : Nat) → Entry
  | 0, _, _, _                 => .error .cutShort
  | depth + 1, start, index, x =>
    match r.automaton.state? start with
    | none   => return ([], x)
    | some s =>
      match x.ends? s.rule index with
      | some ends => return (ends, x)
      | none      => do
        let (first, x) := x.consult r.automaton start
        let x := x.push s.rule
        if r.caret ≤ index then
          let candidates := x.candidates.offerAll r.settings s.rule x.stack first
          return ([], { x with candidates }.pop)
        else if ← r.rejects first index then
          return ([], x.pop)
        else
          let (ends, x) ← r.walkRule (enterRule depth) start index (x.remember s.rule index [])
          return (ends, (x.remember s.rule index ends).pop)

-- A walk from a start rule at the first token. Rules inside one another differ in rule or token
-- index as long as the caret is ahead, which bounds their number.
def collect (startRule : RuleIndex) (cache : FirstSetCache) : Except Fault Session :=
  match r.automaton.ruleStart? startRule with
  | none       => return .start cache
  | some start => do
    let depth := r.automaton.states.length * r.caret + 1
    let (_, x) ← r.enterRule depth start 0 (.start cache)
    return x

end Request
end Caret
