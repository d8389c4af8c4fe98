import Caret.Automaton.Basic

-- What a rule can begin with: from a state, all consuming transitions that can be reached without
-- consuming a token, through nested calls, each with the calls that lead to it. The end of a rule
-- is recorded as `epsilon`, and is not passed.
namespace Caret

-- The token types of one transition, the calls that lead to it, the tokens forced after it.
structure FirstSet where
  symbols   : IntervalSet
  path      : List RuleIndex
  following : List TokenType
deriving DecidableEq

structure FirstSets where
  sets     : List FirstSet
  combined : IntervalSet
deriving DecidableEq

namespace Automaton

variable (a : Automaton)

-- The tokens that must come next in a state, in order: as long as there is exactly one way on and
-- it is an atom or free. `fresh` bounds the number of states not yet visited.
def forcedFrom (visited : List StateId) : (fresh : Nat) → StateId → List TokenType
  | 0, _         => []
  | fresh + 1, s =>
    if s ∈ visited then [] else
      match a.state? s with
      | none       => []
      | some state =>
        if state.isStop then [] else
          match state.transitions with
          | [⟨target, .atom type⟩] => type :: forcedFrom (s :: visited) fresh target
          | [⟨target, .epsilon⟩]   => forcedFrom (s :: visited) fresh target
          | _                      => []

-- The tokens that must come after an atom. Other transitions force nothing.
def forcedAfter (t : Transition) : List TokenType :=
  match t.label with
  | .atom _ => a.forcedFrom [] a.states.length t.target
  | _       => []

end Automaton

namespace FirstSets

-- What is left to do, in order.
inductive Task
  | visit (state : StateId) (path : List RuleIndex)
  | record (set : FirstSet)

-- What a transition leads to. A rule that is being called already is not called again.
def taskOf (a : Automaton) (path : List RuleIndex) (t : Transition) : Option Task :=
  match t.label with
  | .epsilon | .predicate _ => some (.visit t.target path)
  | .rule index _           =>
    if index ∈ path then none else some (.visit t.target (path ++ [index]))
  | .wildcard               => some (.record ⟨a.userTypes, path, []⟩)
  | .atom _ | .set _ | .notSet _ =>
    match t.label.matchSet? a.maxType with
    | none         => none
    | some symbols =>
      if symbols.isEmpty then none else some (.record ⟨symbols, path, a.forcedAfter t⟩)

-- What a state leads to. The exploration ends at `stop` and at every stop state.
def tasksOf (a : Automaton) (stop : Option StateId) (id : StateId) (state : State)
    (path : List RuleIndex) : List Task :=
  if some id = stop ∨ state.isStop
  then [.record ⟨.singleton TokenType.epsilon, path, []⟩]
  else state.transitions.filterMap (taskOf a path)

-- Works the agenda off up to the first state not yet seen, which `next` takes over with.
def drain (a : Automaton) (stop : Option StateId)
    (next : List StateId → List Task → List FirstSet) (seen : List StateId) :
    List Task → List FirstSet
  | []                       => []
  | .record set :: agenda    => set :: drain a stop next seen agenda
  | .visit id path :: agenda =>
    if id ∈ seen then drain a stop next seen agenda else
      match a.state? id with
      | none       => drain a stop next seen agenda
      | some state => next (id :: seen) (tasksOf a stop id state path ++ agenda)

-- Works the agenda off. `fresh` bounds the number of states not yet seen.
def explore (a : Automaton) (stop : Option StateId) :
    (fresh : Nat) → List StateId → List Task → List FirstSet
  | 0         => drain a stop fun _ _ => []
  | fresh + 1 => drain a stop (explore a stop fresh)

def ofSets (sets : List FirstSet) : FirstSets :=
  ⟨sets, sets.foldl (fun s set => s.union set.symbols) .empty⟩

-- What can come first from a state on.
def compute (a : Automaton) (start : StateId) : FirstSets :=
  let stop := do a.ruleStop? (← a.state? start).rule
  ofSets (explore a stop a.states.length [] [.visit start []])

end FirstSets

-- First sets by automaton and state, kept from one request to the next.
structure FirstSetCache where
  entries : List ((AutomatonId × StateId) × FirstSets)

namespace FirstSetCache

def empty : FirstSetCache :=
  ⟨[]⟩

variable (c : FirstSetCache)

def get? (id : AutomatonId) (start : StateId) : Option FirstSets :=
  c.entries.lookup (id, start)

-- The entry for a state, computed if there is none.
def lookup (a : Automaton) (start : StateId) : FirstSets :=
  (c.get? a.id start).getD (.compute a start)

-- The cache with an entry for a state. An entry that is there stays.
def add (a : Automaton) (start : StateId) : FirstSetCache :=
  match c.get? a.id start with
  | some _ => c
  | none   => ⟨((a.id, start), .compute a start) :: c.entries⟩

def getOrCompute (a : Automaton) (start : StateId) : FirstSets × FirstSetCache :=
  (c.lookup a start, c.add a start)

def size : Nat :=
  c.entries.length

-- Without the entries of an automaton.
def invalidate (id : AutomatonId) : FirstSetCache :=
  ⟨c.entries.filter (·.1.1 ≠ id)⟩

end FirstSetCache
end Caret
