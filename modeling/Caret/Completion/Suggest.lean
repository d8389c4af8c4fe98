import Caret.Completion.Walk

-- Suggestions for a window of tokens, with first sets from a shared cache.
namespace Caret

-- Why a predicate could not be decided.
structure PredicateError where
  predicate : PredicateId
  reason    : String
deriving DecidableEq

def PredicateError.message (e : PredicateError) : String :=
  "Predicate " ++ toString e.predicate ++ " failed: " ++ e.reason

abbrev Evaluator := PredicateId → Except PredicateError Bool

-- A predicate that cannot be decided does not hold.
def Evaluator.holds (e : Evaluator) (id : PredicateId) : Bool :=
  match e id with
  | .ok b    => b
  | .error _ => false

-- The evaluator for which every predicate holds.
def Evaluator.always : Evaluator :=
  fun _ => .ok true

-- The outcome of a request: what is suggested, and what the walk did to find it.
structure Suggestions where
  candidates      : Candidates
  statesProcessed : Nat
  asked           : List PredicateId
deriving DecidableEq

def Reading.ofWindow (a : Automaton) (w : Window) (e : Evaluator) : Reading where
  automaton := a
  tokens    := w.types
  caret     := w.caret
  holds     := e.holds

def Request.ofWindow (a : Automaton) (s : Settings) (w : Window) (e : Evaluator) : Request where
  toReading := .ofWindow a w e
  settings  := s

-- Suggestions from a start rule, and the cache with all that was looked up in it.
def suggest (cache : FirstSetCache) (a : Automaton) (s : Settings) (w : Window)
    (startRule : RuleIndex) (e : Evaluator) : Suggestions × FirstSetCache :=
  match (Request.ofWindow a s w e).collect startRule cache with
  | .ok x    => (⟨x.candidates, x.statesProcessed, x.asked⟩, x.cache)
  | .error _ => (⟨.empty, 0, []⟩, cache)

end Caret
