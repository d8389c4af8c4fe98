import Caret.Automaton.Basic

-- Automata put together step by step. Rules, states and transitions may be added in any order, with
-- references that hold only later; `build` checks them all.
namespace Caret

inductive BuildError
  | unknownState (id : StateId)
  | unknownRule (index : RuleIndex)
  | notARuleStart (source target : StateId)
deriving DecidableEq

def BuildError.message : BuildError → String
  | unknownState id             => s!"Unknown state {id}"
  | unknownRule index           => s!"Unknown rule {index}"
  | notARuleStart source target =>
    s!"Rule transition from state {source} targets state {target}, which is not a rule start"

-- A transition as it was asked for. A call of a rule may leave its target open.
structure Arc where
  source : StateId
  target : Option StateId
  label  : Label
deriving DecidableEq

structure Builder where
  id         : Option AutomatonId
  states     : List (StateKind × RuleIndex)
  rules      : List Rule
  arcs       : List Arc
  vocabulary : Vocabulary
  maxType    : Option TokenType

namespace Builder

def empty : Builder where
  id         := none
  states     := []
  rules      := []
  arcs       := []
  vocabulary := .empty
  maxType    := none

variable (b : Builder)

def named (name : String) : Builder :=
  { b with id := some (.ofName name) }

def withVocabulary (vocabulary : Vocabulary) : Builder :=
  { b with vocabulary }

def withMaxType (maxType : TokenType) : Builder :=
  { b with maxType := some maxType }

-- Adds a state, whose number is that of the states before it.
def addState (rule : RuleIndex) (kind : StateKind) : Builder :=
  { b with states := b.states ++ [(kind, rule)] }

-- Adds a rule with a start state and, right after it, a stop state.
def addRule (name : String) : Builder :=
  let start := b.states.length
  let index := b.rules.length
  let b := (b.addState index .ruleStart).addState index .ruleStop
  { b with rules := b.rules ++ [⟨name, start, start + 1⟩] }

def addTransition (source target : StateId) (label : Label) : Builder :=
  { b with arcs := b.arcs ++ [⟨source, some target, label⟩] }

-- Adds a call of a rule, aimed at whatever will be the start of that rule.
def addCall (source : StateId) (rule : RuleIndex) (follow : StateId) : Builder :=
  { b with arcs := b.arcs ++ [⟨source, none, .rule rule follow⟩] }

def checkState (id : StateId) : Except BuildError Unit :=
  if id < b.states.length then .ok () else .error (.unknownState id)

-- The transition that an arc stands for.
def resolve (arc : Arc) : Except BuildError Transition := do
  b.checkState arc.source
  let target ←
    match arc.label, arc.target with
    | .rule index follow, target =>
      match b.rules[index]? with
      | none      => .error (.unknownRule index)
      | some rule => do
        b.checkState follow
        let target := target.getD rule.start
        if target = rule.start then .ok target else .error (.notARuleStart arc.source target)
    | _, some target => .ok target
    | _, none        => .error (.unknownState arc.source)
  b.checkState target
  return ⟨target, arc.label⟩

def resolveAll : List Arc → Except BuildError (List (StateId × Transition))
  | []          => .ok []
  | arc :: arcs => do
    let transition ← b.resolve arc
    let rest       ← resolveAll arcs
    return (arc.source, transition) :: rest

-- The first state of a rule that does not exist.
def strayState? : Option (StateKind × RuleIndex) :=
  b.states.find? fun (_, rule) => b.rules.length ≤ rule

-- The largest token type that the vocabulary or a transition names.
def largestType : TokenType :=
  (b.arcs.filterMap (·.label.largest?)).foldl max b.vocabulary.maxType

-- `fresh` is the identity of the automaton if it has no name.
def build (fresh : AutomatonId) : Except BuildError Automaton :=
  match b.strayState? with
  | some (_, rule) => .error (.unknownRule rule)
  | none           => do
    let transitions ← b.resolveAll b.arcs
    return {
      id         := b.id.getD fresh
      states     := b.states.mapIdx fun id (kind, rule) =>
        ⟨id, kind, rule, (transitions.filter (·.1 = id)).map Prod.snd⟩
      rules      := b.rules
      vocabulary := b.vocabulary
      maxType    := b.maxType.getD b.largestType
    }

end Builder
end Caret
