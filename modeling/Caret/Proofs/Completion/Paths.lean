import Caret.Completion.Walk
import Caret.Proofs.Automaton.Built
import Caret.Proofs.Interval.Complement
import Mathlib.Logic.Relation

-- What the tokens before a caret lead to, said without a walk. A path stays inside one invocation
-- of a rule; a rule that is called on the way is passed as a whole. Rules can be nested in one
-- another at the caret, and whatever transition consumes a token there can be met.
namespace Caret

-- In a set that a label stands for the search finds just the members.
theorem Label.Canonical.contains_iff {label : Label} {maxType type : TokenType}
    {symbols : IntervalSet} (h : label.Canonical) (hs : label.matchSet? maxType = some symbols) :
    symbols.contains type ↔ type ∈ symbols := by
  refine IntervalSet.Canonical.contains_iff ?_
  cases label <;> simp only [matchSet?, reduceCtorEq] at hs
  case atom   => exact Option.some.inj hs ▸ .insertRange .empty _ _
  case set    => exact Option.some.inj hs ▸ h
  case notSet => exact Option.some.inj hs ▸ IntervalSet.Canonical.complement h

-- A condition does not consume a token either; whether it holds is not asked here.
def Transition.IsFree (t : Transition) : Prop :=
  t.label = .epsilon ∨ ∃ id, t.label = .predicate id

namespace Automaton

variable (a : Automaton)

-- The transition can be taken in a state. In a stop state a rule ends, so that no transition can.
def Leaves (s : StateId) (t : Transition) : Prop :=
  ∃ state, a.state? s = some state ∧ state.isStop = false ∧ t ∈ state.transitions

def Stops (s : StateId) : Prop :=
  ∃ state, a.state? s = some state ∧ state.isStop

-- The token types that a transition can consume at the caret.
def symbols? (t : Transition) : Option IntervalSet :=
  match t.label with
  | .wildcard => some a.userTypes
  | label     => label.matchSet? a.maxType

-- The type is among those that a transition can consume at the caret.
def Matches (t : Transition) (type : TokenType) : Prop :=
  ∃ symbols, a.symbols? t = some symbols ∧ type ∈ symbols

-- The transition consumes a token of that type before the caret. A wildcard consumes any token.
def Accepts (t : Transition) (type : TokenType) : Prop :=
  t.label = .wildcard ∨
    ∃ symbols, t.label.matchSet? a.maxType = some symbols ∧ type ∈ symbols

def HasWildcard : Prop :=
  ∃ s t, a.Leaves s t ∧ t.label = .wildcard

-- The second state can be reached from the first one inside an invocation without a token.
inductive Free : StateId → StateId → Prop
  | refl {s} : Free s s
  | step {s u t} : Free s u → a.Leaves u t → t.IsFree → Free s t.target
  | call {s u target r follow f} :
    Free s u → a.Leaves u ⟨target, .rule r follow⟩ → Free target f → a.Stops f → Free s follow

-- A step inside an invocation and the tokens that it consumes. A rule that is called is one step.
structure Step where
  label  : Label
  tokens : List TokenType

def consumed (steps : List Step) : List TokenType :=
  steps.flatMap Step.tokens

-- A run inside an invocation, if just these conditions hold.
inductive Run (holds : PredicateId → Prop) : StateId → List Step → StateId → Prop
  | nil {s} : Run holds s [] s
  | free {s t steps s'} : a.Leaves s t → t.label = .epsilon → Run holds t.target steps s' →
    Run holds s (⟨t.label, []⟩ :: steps) s'
  | test {s t id steps s'} : a.Leaves s t → t.label = .predicate id → holds id →
    Run holds t.target steps s' → Run holds s (⟨t.label, []⟩ :: steps) s'
  | token {s t type steps s'} : a.Leaves s t → a.Accepts t type → Run holds t.target steps s' →
    Run holds s (⟨t.label, [type]⟩ :: steps) s'
  | call {s target r follow inner f steps s'} : a.Leaves s ⟨target, .rule r follow⟩ →
    Run holds target inner f → a.Stops f → Run holds follow steps s' →
    Run holds s (⟨.rule r follow, consumed inner⟩ :: steps) s'

-- The rule can end without a token.
def Nullable (r : RuleIndex) : Prop :=
  ∃ start f, a.ruleStart? r = some start ∧ a.Free start f ∧ a.Stops f

def Called (r : RuleIndex) : Prop :=
  ∃ s target follow, a.Leaves s ⟨target, .rule r follow⟩

-- The first rule can call the second one before it consumes a token.
def LeftCalls (r r' : RuleIndex) : Prop :=
  ∃ start s target follow,
    a.ruleStart? r = some start ∧ a.Free start s ∧ a.Leaves s ⟨target, .rule r' follow⟩

def LeftRecursive : Prop :=
  ∃ r, Relation.TransGen a.LeftCalls r r

variable {a} {s : StateId} {t : Transition} {type : TokenType}

@[simp] theorem consumed_nil : consumed [] = [] :=
  rfl

@[simp] theorem consumed_cons {step : Step} {steps : List Step} :
    consumed (step :: steps) = step.tokens ++ consumed steps :=
  rfl

@[simp] theorem consumed_append {steps steps' : List Step} :
    consumed (steps ++ steps') = consumed steps ++ consumed steps' :=
  List.flatMap_append

theorem Run.append {holds : PredicateId → Prop} {s' s'' : StateId} {steps steps' : List Step}
    (h : a.Run holds s steps s') (h' : a.Run holds s' steps' s'') :
    a.Run holds s (steps ++ steps') s'' := by
  induction h
  case nil => exact h'
  case free hl hf _ hi       => exact .free hl hf (hi h')
  case test hl ht hh _ hi    => exact .test hl ht hh (hi h')
  case token hl ha _ hi      => exact .token hl ha (hi h')
  case call hl hc hs _ _ hi  => exact .call hl hc hs (hi h')

theorem Leaves.not_stops (h : a.Leaves s t) : ¬a.Stops s := by
  intro ⟨_, hs, hstop⟩
  have ⟨_, hs', hstop', _⟩ := h
  simp_all

end Automaton

-- A rule that is called may be passed at every token index.
abbrev anywhere : Nat → Prop :=
  fun _ => True

namespace Reading

variable (x : Reading)

-- The transition leads from a token index to another one in an invocation entered at `entry`. In
-- an invocation entered at the caret predicates are taken to hold.
inductive Moves (entry : Nat) (t : Transition) : Nat → Nat → Prop
  | free {i} : t.label = .epsilon → Moves entry t i i
  | test {i id} : t.label = .predicate id → x.holds id ∨ x.caret ≤ entry → Moves entry t i i
  | consume {i type} : i < x.caret → x.tokens[i]? = some type → x.automaton.Accepts t type →
    Moves entry t i (i + 1)

-- A way through an invocation entered at `entry`. `through` says at what token indices a rule that
-- is called may be passed.
inductive Path (through : Nat → Prop) : (entry : Nat) → Place → Place → Prop
  | refl {entry p} : Path through entry p p
  | move {entry p s i t j} : Path through entry p ⟨s, i⟩ → x.automaton.Leaves s t →
    x.Moves entry t i j → Path through entry p ⟨t.target, j⟩
  | call {entry p s i target r follow f j} : Path through entry p ⟨s, i⟩ →
    x.automaton.Leaves s ⟨target, .rule r follow⟩ → through i →
    Path through i ⟨target, i⟩ ⟨f, j⟩ → x.automaton.Stops f → Path through entry p ⟨follow, j⟩

-- Inside an invocation of the rule that starts in `root`, entered at `index`, further rules are
-- being called, each inside the one before. The innermost one starts in `start` and was entered at
-- `entry`.
inductive Nested (through : Nat → Prop) (root : StateId) (index : Nat) :
    List RuleIndex → (start : StateId) → (entry : Nat) → Prop
  | root : Nested through root index [] root index
  | call {rules start entry s i target r follow} : Nested through root index rules start entry →
    x.Path through entry ⟨start, entry⟩ ⟨s, i⟩ →
    x.automaton.Leaves s ⟨target, .rule r follow⟩ →
    Nested through root index (rules ++ [r]) target i

-- An invocation of the rule that starts in `start`, entered at `index`, can end at `j`.
def Ends (through : Nat → Prop) (start : StateId) (index j : Nat) : Prop :=
  ∃ f, x.Path through index ⟨start, index⟩ ⟨f, j⟩ ∧ x.automaton.Stops f

-- Inside an invocation, with `rules` called in one another, the state can be reached at the caret.
def Reaches (through : Nat → Prop) (root : StateId) (index : Nat) (rules : List RuleIndex)
    (s : StateId) : Prop :=
  ∃ start entry, x.Nested through root index rules start entry ∧
    x.Path through entry ⟨start, entry⟩ ⟨s, x.caret⟩

-- From the start rule on, with `rules` being called, the start rule the outermost of them, the
-- tokens before the caret lead to a state in which the transition can be taken.
def Meets (startRule : RuleIndex) (rules : List RuleIndex) (t : Transition) : Prop :=
  ∃ root inner s, x.automaton.ruleStart? startRule = some root ∧ rules = startRule :: inner ∧
    x.Reaches anywhere root 0 inner s ∧ x.automaton.Leaves s t

-- The same, where no rule that is called at the caret has been passed.
def MeetsDirectly (startRule : RuleIndex) (rules : List RuleIndex) (t : Transition) : Prop :=
  ∃ root inner s, x.automaton.ruleStart? startRule = some root ∧ rules = startRule :: inner ∧
    x.Reaches (· < x.caret) root 0 inner s ∧ x.automaton.Leaves s t

-- The transition can consume a token of the type at the caret.
def Takes (startRule : RuleIndex) (t : Transition) (type : TokenType) : Prop :=
  ∃ rules, x.Meets startRule rules t ∧ x.automaton.Matches t type

-- A token of the type can stand at the caret.
def Viable (startRule : RuleIndex) (rules : List RuleIndex) (type : TokenType) : Prop :=
  ∃ t, x.Meets startRule rules t ∧ x.automaton.Matches t type

variable {x} {through : Nat → Prop} {entry i j index : Nat} {p p' : Place}
  {root start s target follow : StateId} {r : RuleIndex} {rules inner : List RuleIndex}
  {t : Transition}

theorem Moves.index_le (h : x.Moves entry t i j) : i ≤ j := by
  cases h
  case free    => exact Nat.le_refl _
  case test    => exact Nat.le_refl _
  case consume => exact Nat.le_succ _

theorem Moves.le_caret (h : x.Moves entry t i j) (hi : i ≤ x.caret) : j ≤ x.caret := by
  cases h
  case free            => exact hi
  case test            => exact hi
  case consume hlt _ _ => exact hlt

theorem Moves.not_call : ¬x.Moves entry ⟨target, .rule r follow⟩ i j := by
  intro h
  cases h
  case free h => contradiction
  case test h => contradiction
  case consume ha =>
    rcases ha with h | ⟨_, h, _⟩
    · contradiction
    · simp [Label.matchSet?] at h

namespace Path

theorem trans {p'' : Place} (h : x.Path through entry p p') (h' : x.Path through entry p' p'') :
    x.Path through entry p p'' := by
  induction h'
  case refl => exact h
  case move hl hm hi => exact (hi h).move hl hm
  case call hl ht hc hs hi _ => exact (hi h).call hl ht hc hs

theorem index_le (h : x.Path through entry p p') : p.index ≤ p'.index := by
  induction h
  case refl => exact Nat.le_refl _
  case move hm hi => exact Nat.le_trans hi hm.index_le
  case call hp hc => exact Nat.le_trans hp hc

theorem le_caret (h : x.Path through entry p p') (hp : p.index ≤ x.caret) :
    p'.index ≤ x.caret := by
  induction h
  case refl => exact hp
  case move hm hi => exact hm.le_caret (hi hp)
  case call hi hc => exact hc (hi hp)

-- A path that ends with the token that it begins with consumes none.
theorem free (h : x.Path through entry p p') (he : p'.index ≤ p.index) :
    x.automaton.Free p.state p'.state := by
  induction h
  case refl => exact .refl
  case move hp hl hm hi =>
    cases hm
    case free hf    => exact (hi he).step hl (.inl hf)
    case test id hf _ => exact (hi he).step hl (.inr ⟨id, hf⟩)
    case consume    => exact absurd hp.index_le (Nat.not_le.mpr he)
  case call hp hl _ hc hs hi hci =>
    have hle := hp.index_le
    exact (hi (Nat.le_trans hc.index_le he)).call hl (hci (Nat.le_trans he hle)) hs

end Path

namespace Nested

theorem index_le (h : x.Nested through root index rules start entry) : index ≤ entry := by
  induction h
  case root => exact Nat.le_refl _
  case call hp _ hi => exact Nat.le_trans hi hp.index_le

-- Rules nested in a rule that is called are nested in its caller.
theorem cons (hp : x.Path through index ⟨root, index⟩ ⟨s, i⟩)
    (hl : x.automaton.Leaves s ⟨target, .rule r follow⟩)
    (h : x.Nested through target i rules start entry) :
    x.Nested through root index (r :: rules) start entry := by
  induction h
  case root => exact Nested.root.call hp hl
  case call hp' hl' hi => exact hi.call hp' hl'

-- Conversely, the outermost of the nested rules is called by the root.
theorem front (h : x.Nested through root index rules start entry) :
    rules = [] ∧ start = root ∧ entry = index ∨
      ∃ s i target r follow inner, rules = r :: inner ∧
        x.Path through index ⟨root, index⟩ ⟨s, i⟩ ∧
        x.automaton.Leaves s ⟨target, .rule r follow⟩ ∧
        x.Nested through target i inner start entry := by
  induction h
  case root => exact .inl ⟨rfl, rfl, rfl⟩
  case call start entry s i target r follow _ hp hl hi =>
    rcases hi with ⟨rfl, rfl, rfl⟩ | ⟨s', i', target', r', follow', inner, rfl, hp', hl', hn⟩
    · exact .inr ⟨s, i, target, r, follow, [], rfl, hp, hl, .root⟩
    · exact .inr ⟨s', i', target', r', follow', inner ++ [r], rfl, hp', hl', hn.call hp hl⟩

end Nested

theorem Reaches.cons (hp : x.Path through index ⟨root, index⟩ ⟨s, i⟩)
    (hl : x.automaton.Leaves s ⟨target, .rule r follow⟩) {s' : StateId}
    (h : x.Reaches through target i rules s') : x.Reaches through root index (r :: rules) s' := by
  have ⟨start, entry, hn, hp'⟩ := h
  exact ⟨start, entry, hn.cons hp hl, hp'⟩

-- Whatever can be met where fewer rules may be passed can be met.
section Anywhere

theorem Path.anywhere (h : x.Path through entry p p') : x.Path anywhere entry p p' := by
  induction h
  case refl => exact .refl
  case move hl hm hi => exact hi.move hl hm
  case call hl _ _ hs hi hc => exact hi.call hl trivial hc hs

theorem Nested.anywhere (h : x.Nested through root index rules start entry) :
    x.Nested anywhere root index rules start entry := by
  induction h
  case root => exact .root
  case call hp hl hi => exact hi.call hp.anywhere hl

theorem Reaches.anywhere (h : x.Reaches through root index rules s) :
    x.Reaches anywhere root index rules s :=
  have ⟨start, entry, hn, hp⟩ := h
  ⟨start, entry, hn.anywhere, hp.anywhere⟩

theorem MeetsDirectly.meets {startRule : RuleIndex} (h : x.MeetsDirectly startRule rules t) :
    x.Meets startRule rules t :=
  have ⟨root, inner, s, hr, hi, hreach, hl⟩ := h
  ⟨root, inner, s, hr, hi, hreach.anywhere, hl⟩

end Anywhere

-- Where no called rule can end without a token, none can be passed at the caret.
section Productive

variable (hn : ∀ r, x.automaton.Called r → ¬x.automaton.Nullable r)
  (hw : ∀ {s target r follow}, x.automaton.Leaves s ⟨target, .rule r follow⟩ →
    x.automaton.ruleStart? r = some target)

include hn hw

theorem Path.before (h : x.Path through entry p p') (hp : p.index ≤ x.caret) :
    x.Path (· < x.caret) entry p p' := by
  induction h
  case refl => exact .refl
  case move hl hm hi => exact (hi hp).move hl hm
  case call s i target r follow f j hp' hl _ hc hs hi hci =>
    have hle : i ≤ x.caret := hp'.le_caret hp
    by_cases hlt : i < x.caret
    case pos => exact (hi hp).call hl hlt (hci hle) hs
    case neg =>
      have hj : j ≤ x.caret := hc.le_caret hle
      have hf := hc.free (show j ≤ i by omega)
      exact absurd ⟨target, f, hw hl, hf, hs⟩ (hn r ⟨s, target, follow, hl⟩)

theorem Nested.before (h : x.Nested through root index rules start entry)
    (hi : index ≤ x.caret) :
    x.Nested (· < x.caret) root index rules start entry ∧ entry ≤ x.caret := by
  induction h
  case root => exact ⟨.root, hi⟩
  case call hp hl ih =>
    have ⟨hn', hle⟩ := ih
    exact ⟨hn'.call (hp.before hn hw hle) hl, hp.le_caret hle⟩

theorem Reaches.before (h : x.Reaches through root index rules s) (hi : index ≤ x.caret) :
    x.Reaches (· < x.caret) root index rules s := by
  have ⟨start, entry, hn', hp⟩ := h
  have ⟨hn', hle⟩ := hn'.before hn hw hi
  exact ⟨start, entry, hn', hp.before hn hw hle⟩

end Productive

end Reading
end Caret
