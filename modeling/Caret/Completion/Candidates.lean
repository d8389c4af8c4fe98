import Caret.Completion.FirstSets

-- What is suggested at a caret. Tokens come with the tokens forced after them, unless they were met
-- with different ones. A rule that is preferred takes the place of all that it contains, and comes
-- with the rules around it.
namespace Caret

-- Inserts into an ascending list, unless the value is there.
def insertAscending {α : Type} [LT α] [DecidableLT α] (x : α) : List α → List α
  | []      => [x]
  | y :: ys =>
    if x < y then x :: y :: ys
    else if y < x then y :: insertAscending x ys
    else y :: ys

-- Token types that are never suggested, and rules that are suggested as such, ascending.
structure Settings where
  ignored   : List TokenType
  preferred : List RuleIndex
deriving DecidableEq

namespace Settings

def empty : Settings :=
  ⟨[], []⟩

variable (s : Settings)

def ignore (type : TokenType) : Settings :=
  { s with ignored := insertAscending type s.ignored }

def prefer (rule : RuleIndex) : Settings :=
  { s with preferred := insertAscending rule s.preferred }

def ignoreAll (types : List TokenType) : Settings :=
  types.foldl ignore s

def preferAll (rules : List RuleIndex) : Settings :=
  rules.foldl prefer s

def isIgnored (type : TokenType) : Bool :=
  type ∈ s.ignored

def isPreferred (rule : RuleIndex) : Bool :=
  rule ∈ s.preferred

-- The outermost preferred rule of a stack, and the rules around it.
def outermost? (stack : List RuleIndex) : Option (RuleIndex × List RuleIndex) :=
  match stack.dropWhile (!s.isPreferred ·) with
  | []        => none
  | rule :: _ => some (rule, stack.takeWhile (!s.isPreferred ·))

-- A list of forced tokens ends before the first ignored one.
def visible (following : List TokenType) : List TokenType :=
  following.takeWhile (!s.isIgnored ·)

end Settings

-- Tokens with those forced after them, and rules with those around them, in the order found.
structure Candidates where
  tokens : List (TokenType × List TokenType)
  rules  : List (RuleIndex × List RuleIndex)
deriving DecidableEq

namespace Candidates

def empty : Candidates :=
  ⟨[], []⟩

variable (c : Candidates)

def isEmpty : Bool :=
  c.tokens.isEmpty && c.rules.isEmpty

def hasToken (type : TokenType) : Bool :=
  c.tokens.any (·.1 = type)

def hasRule (rule : RuleIndex) : Bool :=
  c.rules.any (·.1 = rule)

-- A token met again with other tokens after it forces none.
def mergeToken (type : TokenType) (following : List TokenType) :
    List (TokenType × List TokenType) → List (TokenType × List TokenType)
  | []                => [(type, following)]
  | (t, known) :: ts =>
    if t = type
    then (t, if known = following then known else []) :: ts
    else (t, known) :: mergeToken type following ts

def addToken (type : TokenType) (following : List TokenType) : Candidates :=
  { c with tokens := mergeToken type following c.tokens }

-- A rule keeps the path that it was first found by.
def addRule (rule : RuleIndex) (path : List RuleIndex) : Candidates :=
  if c.hasRule rule then c else { c with rules := c.rules ++ [(rule, path)] }

-- Adds the outermost preferred rule of a stack, if there is one.
def addPreferred (s : Settings) (stack : List RuleIndex) : Candidates :=
  match s.outermost? stack with
  | none              => c
  | some (rule, path) => c.addRule rule path

-- Adds a token unless it is none or ignored.
def addVisible (s : Settings) (following : List TokenType) (type : TokenType) : Candidates :=
  if type = .epsilon ∨ s.isIgnored type then c else c.addToken type following

-- Adds what can stand at the caret. A preferred rule around it takes its place.
def offer (s : Settings) (stack : List RuleIndex) (symbols : IntervalSet)
    (following : List TokenType) : Candidates :=
  match s.outermost? stack with
  | some (rule, path) => c.addRule rule path
  | none              =>
    let following := s.visible following
    symbols.toList.foldl (fun c type => c.addVisible s following type) c

-- Adds all that a rule can begin with, the innermost of the stack, unless it is itself preferred.
def offerAll (s : Settings) (rule : RuleIndex) (stack : List RuleIndex) (first : FirstSets) :
    Candidates :=
  if s.isPreferred rule
  then c.addPreferred s stack
  else first.sets.foldl (fun c set => c.offer s (stack ++ set.path) set.symbols set.following) c

-- Each token followed by the tokens that it forces.
def tokenNames (v : Vocabulary) : List String :=
  c.tokens.map fun (type, following) =>
    " ".intercalate (v.displayName type :: following.map v.displayName)

def ruleNames (a : Automaton) : List String :=
  c.rules.map fun (rule, _) => (a.ruleName? rule).getD (toString rule)

end Candidates
end Caret
