import Caret.Completion.Suggest

-- The trace of a walk. It records as events what the walk comes across: the rules entered and the
-- transitions met at the caret, the predicates asked, the states visited. It knows neither of
-- preferred rules nor of ignored tokens; what is suggested is decided from the events alone.
namespace Caret

-- What a walk is about.
structure Query extends Reading where
  -- What can come first from a state on.
  first : StateId → FirstSets
  -- Whether a rule is skipped if it cannot begin with the current token.
  prune : Bool

-- What a walk comes across. `stack` holds the rules that are being called, the outermost first.
inductive Event
  | consulted (start : StateId)
  | walked (rule : RuleIndex) (entry : Nat)
  | visited (rule : RuleIndex) (entry : Nat) (state : StateId) (index : Nat)
  | asked (predicate : PredicateId)
  -- A rule, the innermost of the stack, was entered at the caret.
  | entered (stack : List RuleIndex)
  -- A free transition was taken at the caret.
  | passed (stack : List RuleIndex)
  -- Any of the symbols can stand at the caret.
  | offered (stack : List RuleIndex) (symbols : IntervalSet) (following : List TokenType)
  -- A token was asked for that is not there.
  | outside (index : Nat)
  -- A bound of the walk was reached.
  | cutShort
deriving DecidableEq

-- The token indices at which a rule can end, in the order found.
structure Walked where
  ends     : List Nat
  progress : Progress
  events   : List Event

-- Where transitions lead, in their order.
structure Stepped where
  places   : List Place
  progress : Progress
  events   : List Event

-- An invocation of a rule.
structure Frame where
  rule  : RuleIndex
  entry : Nat

namespace Query

variable (q : Query)

-- The rule can neither be empty nor begin with the token.
def rejects (first : FirstSets) (token : TokenType) : Bool :=
  q.prune && !first.combined.contains TokenType.epsilon && !first.combined.contains token

-- Everything that a rule entered at the caret can begin with is offered.
def offersOf (stack : List RuleIndex) (first : FirstSets) : List Event :=
  .entered stack :: first.sets.map fun set => .offered (stack ++ set.path) set.symbols set.following

-- Follows a transition that does not call a rule.
def move (stack : List RuleIndex) (current : TokenType) (index : Nat) (t : Transition) :
    List Place × List Event :=
  match t.label with
  | .rule _ _     => ([], [])
  | .predicate id => (if q.holds id then [⟨t.target, index⟩] else [], [.asked id])
  | .epsilon      => ([⟨t.target, index⟩], if q.caret ≤ index then [.passed stack] else [])
  | .wildcard     =>
    if q.caret ≤ index
    then ([], [.offered stack q.automaton.userTypes []])
    else ([⟨t.target, index + 1⟩], [])
  | .atom _ | .set _ | .notSet _ =>
    match t.label.matchSet? q.automaton.maxType with
    | none         => ([], [])
    | some symbols =>
      if symbols.isEmpty then ([], [])
      else if q.caret ≤ index then ([], [.offered stack symbols (q.automaton.forcedAfter t)])
      else (if symbols.contains current then [⟨t.target, index + 1⟩] else [], [])

-- Follows a transition. `call` enters a rule by its start state.
def take (call : StateId → Nat → Progress → Walked) (current : TokenType) (index : Nat)
    (t : Transition) (g : Progress) : Stepped :=
  match t.label with
  | .rule _ follow =>
    let callee := call t.target index g
    ⟨callee.ends.map (⟨follow, ·⟩), callee.progress, callee.events⟩
  | _ =>
    let (places, events) := q.move g.stack current index t
    ⟨places, g, events⟩

-- Follows transitions from left to right.
def takeAll (call : StateId → Nat → Progress → Walked) (current : TokenType) (index : Nat) :
    List Transition → Progress → Stepped
  | [], g      => ⟨[], g, []⟩
  | t :: ts, g =>
    let step := q.take call current index t g
    let rest := takeAll call current index ts step.progress
    ⟨step.places ++ rest.places, rest.progress, step.events ++ rest.events⟩

-- Visits places until none is left; the place found last is visited first. `fresh` bounds the
-- number of places not yet visited.
def walkPlaces (call : StateId → Nat → Progress → Walked) (f : Frame) :
    (fresh : Nat) → (pending visited : List Place) → (ends : List Nat) → Progress → Walked
  | 0, pending, visited, ends, g         =>
    match q.nextPlace? visited pending with
    | none   => ⟨ends, g, []⟩
    | some _ => ⟨ends, g, [.cutShort]⟩
  | fresh + 1, pending, visited, ends, g =>
    match q.nextPlace? visited pending with
    | none              => ⟨ends, g, []⟩
    | some (p, s, rest) =>
      match q.tokens[p.index]? with
      | none         => ⟨ends, g, [.outside p.index]⟩
      | some current =>
        let visit := Event.visited f.rule f.entry p.state p.index
        if s.isStop then
          let after := walkPlaces call f fresh rest (p :: visited) (addEnd ends p.index) g
          { after with events := visit :: after.events }
        else
          let step  := q.takeAll call current p.index s.transitions g
          let found := step.places.reverse ++ rest
          let after := walkPlaces call f fresh found (p :: visited) ends step.progress
          { after with events := visit :: step.events ++ after.events }

-- Walks a rule from its start state on.
def walkRule (call : StateId → Nat → Progress → Walked) (f : Frame) (start : StateId)
    (g : Progress) : Walked :=
  let places := q.automaton.states.length * (q.caret + 1)
  q.walkPlaces call f places [⟨start, f.entry⟩] [] [] g

-- Enters a rule by its start state at a token index. The rule is on the stack while it is walked.
-- `depth` bounds the number of rules that can be entered inside one another.
def enterRule : (depth : Nat) → StateId → Nat → Progress → Walked
  | 0, _, _, g                => ⟨[], g, [.cutShort]⟩
  | depth + 1, start, index, g =>
    match q.automaton.state? start with
    | none   => ⟨[], g, []⟩
    | some s =>
      match g.ends? s.rule index with
      | some ends => ⟨ends, g, []⟩
      | none      =>
        let first := q.first start
        let g := g.push s.rule
        if q.caret ≤ index then
          ⟨[], g.pop, .consulted start :: offersOf g.stack first⟩
        else
          match q.tokens[index]? with
          | none         => ⟨[], g.pop, [.consulted start, .outside index]⟩
          | some current =>
            if q.rejects first current then
              ⟨[], g.pop, [.consulted start]⟩
            else
              let g := g.remember s.rule index []
              let w := q.walkRule (enterRule depth) ⟨s.rule, index⟩ start g
              let g := w.progress.remember s.rule index w.ends
              ⟨w.ends, g.pop, .consulted start :: .walked s.rule index :: w.events⟩

-- The events of a walk from a start rule at the first token. Rules inside one another differ in
-- rule or token index as long as the caret is ahead, which bounds their number.
def events (startRule : RuleIndex) : List Event :=
  match q.automaton.ruleStart? startRule with
  | none       => []
  | some start => (q.enterRule (q.automaton.states.length * q.caret + 1) start 0 .empty).events

end Query

namespace Event

def visited? : Event → Bool
  | visited .. => true
  | _          => false

def asked? : Event → Option PredicateId
  | asked id => some id
  | _        => none

def consulted? : Event → Option StateId
  | consulted start => some start
  | _               => none

end Event

namespace Candidates

variable (c : Candidates)

def observe (s : Settings) : Event → Candidates
  | .entered stack => if stack.getLast?.any s.isPreferred then c.addPreferred s stack else c
  | .passed stack  => c.addPreferred s stack
  | .offered stack symbols following => c.offer s stack symbols following
  | _ => c

def ofEvents (s : Settings) (events : List Event) : Candidates :=
  events.foldl (fun c e => c.observe s e) empty

end Candidates

def Query.ofWindow (a : Automaton) (w : Window) (e : Evaluator) (cache : FirstSetCache) :
    Query where
  toReading := .ofWindow a w e
  first     := cache.lookup a
  prune     := true

end Caret
