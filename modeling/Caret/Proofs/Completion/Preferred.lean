import Caret.Proofs.Completion.EmptyRules

-- Preferred rules stand for what they contain. A rule is suggested with the rules around it just as
-- it is being called at the caret, and when more rules are preferred, tokens give way to them: no
-- other token appears, and those that stay force what they did.
namespace Caret

namespace Settings

-- The same settings with other preferred rules.
def preferring (s : Settings) (rules : List RuleIndex) : Settings :=
  { s with preferred := rules }

@[simp] theorem isPreferred_preferring {s : Settings} {rules : List RuleIndex} {rule : RuleIndex} :
    (s.preferring rules).isPreferred rule = decide (rule ∈ rules) :=
  rfl

end Settings

-- The rule that an event names is the outermost preferred one of its stack.
theorem Event.exists_stack_of_nominee? {s : Settings} {e : Event} {nominee : Nominee}
    (h : e.nominee? s = some nominee) :
    ∃ stack, e.stack? = some stack ∧ s.outermost? stack = some nominee := by
  cases e <;> simp only [nominee?, reduceCtorEq] at h
  case entered stack =>
    split at h
    case isTrue  => exact ⟨stack, rfl, h⟩
    case isFalse => contradiction
  case passed stack      => exact ⟨stack, rfl, h⟩
  case offered stack _ _ => exact ⟨stack, rfl, h⟩

namespace Candidates

variable {s : Settings} {rules : List RuleIndex} {e : Event} {events : List Event} {t : TokenType}
  {F L : List TokenType}

section Preferring

variable (hr : s.preferred ⊆ rules)

include hr

-- Less is offered with more preferred rules, and in the same way.
theorem offers_preferring (h : (t, F) ∈ events.flatMap (·.offers (s.preferring rules))) :
    (t, F) ∈ events.flatMap (·.offers s) := by
  have ⟨e, he, ho⟩ := List.mem_flatMap.mp h
  have ⟨stack, symbols, following, heq, hstack, ht, hne, hi, hF⟩ := mem_offers.mp ho
  refine List.mem_flatMap.mpr ⟨e, he, mem_offers.mpr
    ⟨stack, symbols, following, heq, fun r hm => ?_, ht, hne, hi, hF⟩⟩
  have hn : r ∉ rules := by simpa using hstack r hm
  simpa [Settings.isPreferred] using fun hp => hn (hr hp)

theorem exists_token_of_preferring (h : (t, F) ∈ (ofEvents (s.preferring rules) events).tokens) :
    ∃ L, (t, L) ∈ (ofEvents s events).tokens := by
  have ⟨⟨F', hF'⟩, _⟩ := merged_tokens.agrees t F h
  exact merged_tokens.covers t F' (offers_preferring hr hF')

theorem eq_of_mem_preferring (hF : (t, F) ∈ (ofEvents (s.preferring rules) events).tokens)
    (hL : (t, L) ∈ (ofEvents s events).tokens) (hne : L ≠ []) : F = L := by
  have hall := (merged_tokens.agrees t L hL).forall_of_ne_nil hne
  exact (merged_tokens.agrees t F hF).eq_of_forall fun F' hm => hall F' (offers_preferring hr hm)

end Preferring

-- An offer that is withdrawn is made inside a rule that is preferred now and was not before.
theorem exists_nominee_of_withdrawn (ho : (t, F) ∈ e.offers s)
    (hn : (t, F) ∉ e.offers (s.preferring rules)) :
    ∃ rule path, e.nominee? (s.preferring rules) = some (rule, path) ∧ rule ∈ rules ∧
      rule ∉ s.preferred := by
  have ⟨stack, symbols, following, heq, hstack, ht, hne, hi, hF⟩ := mem_offers.mp ho
  subst heq
  cases hout : (s.preferring rules).outermost? stack
  case none =>
    have hnone := Settings.outermost?_eq_none.mp hout
    exact absurd (mem_offers.mpr ⟨stack, symbols, following, rfl, hnone, ht, hne, hi, hF⟩) hn
  case some nominee =>
    obtain ⟨rule, path⟩ := nominee
    have ⟨hp, _, hprefix⟩ := Settings.prefix_of_outermost? hout
    have hm : rule ∈ stack := hprefix.subset (by simp)
    refine ⟨rule, path, hout, ?_, ?_⟩
    · simpa using hp
    · simpa [Settings.isPreferred] using hstack rule hm

theorem exists_rule_of_missing (hL : (t, L) ∈ (ofEvents s events).tokens)
    (hn : ∀ F, (t, F) ∉ (ofEvents (s.preferring rules) events).tokens) :
    ∃ rule path, (rule, path) ∈ (ofEvents (s.preferring rules) events).rules ∧ rule ∈ rules ∧
      rule ∉ s.preferred := by
  have ⟨⟨F, hF⟩, _⟩ := merged_tokens.agrees t L hL
  have ⟨e, he, ho⟩ := List.mem_flatMap.mp hF
  have hout : (t, F) ∉ e.offers (s.preferring rules) := fun h =>
    have ⟨F', hF'⟩ := merged_tokens.covers t F (List.mem_flatMap.mpr ⟨e, he, h⟩)
    hn F' hF'
  have ⟨rule, path, hname, hnew, hold⟩ := exists_nominee_of_withdrawn ho hout
  have ⟨path', hm⟩ := exists_rule_of_nominee he hname
  exact ⟨rule, path', hm, hnew, hold⟩

end Candidates

-- Two requests of which the second one prefers more rules. What is missing in it has been replaced
-- by a rule that only the second one prefers.
theorem suggest_preferring (cache : FirstSetCache) (a : Automaton) (s : Settings) (w : Window)
    (startRule : RuleIndex) (e : Evaluator) (rules : List RuleIndex) (hr : s.preferred ⊆ rules) :
    let fewer := (suggest cache a s w startRule e).fst
    let more := (suggest cache a (s.preferring rules) w startRule e).fst
    more.statesProcessed = fewer.statesProcessed ∧
    (∀ t F, (t, F) ∈ more.candidates.tokens → ∃ L, (t, L) ∈ fewer.candidates.tokens) ∧
    (∀ t F L, (t, F) ∈ more.candidates.tokens → (t, L) ∈ fewer.candidates.tokens → L ≠ [] →
      F = L) ∧
    ∀ t L, (t, L) ∈ fewer.candidates.tokens → (∀ F, (t, F) ∉ more.candidates.tokens) →
      ∃ rule path, (rule, path) ∈ more.candidates.rules ∧ rule ∈ rules ∧ rule ∉ s.preferred := by
  simp only [suggest_eq]
  refine ⟨trivial, fun t F => ?_, fun t F L => ?_, fun t L => ?_⟩
  · exact Candidates.exists_token_of_preferring hr
  · exact Candidates.eq_of_mem_preferring hr
  · exact Candidates.exists_rule_of_missing

-- Preferring the value takes away the token that it begins with.
theorem suggest_preferring_value :
    Settings.empty.preferred ⊆ [1] ∧
      (2, []) ∈ (suggest .empty optionalValue .empty afterName 0 .always).fst.candidates.tokens ∧
      ∃ path, (1, path) ∈ (suggest .empty optionalValue (Settings.empty.preferring [1]) afterName 0
        .always).fst.candidates.rules := by
  have hr : Settings.empty.preferred ⊆ [1] := by simp [Settings.empty]
  have hL : (2, []) ∈
      (suggest .empty optionalValue .empty afterName 0 .always).fst.candidates.tokens := by
    decide +kernel
  have hnone : (suggest .empty optionalValue (Settings.empty.preferring [1]) afterName 0
      .always).fst.candidates.tokens = [] := by
    decide +kernel
  have ⟨_, _, _, hmissing⟩ :=
    suggest_preferring .empty optionalValue .empty afterName 0 .always [1] hr
  have ⟨rule, path, hm, hrule, _⟩ := hmissing 2 [] hL (by simp [hnone])
  cases List.mem_singleton.mp hrule
  exact ⟨hr, hL, path, hm⟩

namespace Reading

variable {x : Reading} {through : Nat → Prop} {root start : StateId} {index entry : Nat}
  {startRule : RuleIndex} {stack : List RuleIndex}

-- From the start rule on, the rules are being called in one another at the caret, the start rule
-- the outermost of them, and the innermost one has not ended.
def Open (x : Reading) (startRule : RuleIndex) (rules : List RuleIndex) : Prop :=
  ∃ root inner s state, x.automaton.ruleStart? startRule = some root ∧ rules = startRule :: inner ∧
    x.Reaches anywhere root 0 inner s ∧ x.automaton.state? s = some state ∧ state.isStop = false

section Open

variable (hr : x.automaton.ruleStart? startRule = some root)

include hr

-- A rule in a state that can be left is open.
theorem Reaches.opens {path : List RuleIndex} {s : StateId} {t : Transition}
    (h : x.Reaches through root 0 path s) (hl : x.automaton.Leaves s t) :
    x.Open startRule (startRule :: path) :=
  have ⟨state, hs, hstop, _⟩ := hl
  ⟨root, path, s, state, hr, rfl, h.anywhere, hs, hstop⟩

variable (hw : x.automaton.WellFormed)

include hw

theorem Nested.exists_rule (h : x.Nested through root index stack start entry) :
    ∃ r, x.automaton.ruleStart? r = some start := by
  cases h
  case root => exact ⟨startRule, hr⟩
  case call hl _ => exact ⟨_, hw.ruleStart?_eq hl⟩

-- So is a rule that is entered at the caret: its start is not its stop.
theorem Nested.opens {path : List RuleIndex} (h : x.Nested through root 0 path start x.caret) :
    x.Open startRule (startRule :: path) := by
  have ⟨r, hstart⟩ := h.exists_rule hr hw
  have ⟨state, hs, _, hkind⟩ := hw.start hstart
  refine ⟨root, path, start, state, hr, rfl, ⟨start, x.caret, h.anywhere, .refl⟩, hs, ?_⟩
  simp [State.isStop, hkind]

theorem Witnessed.opens {e : Event} (h : x.Witnessed root 0 [startRule] e)
    (hstack : e.stack? = some stack) : x.Open startRule stack := by
  cases h
  case silent hn => simp [hn] at hstack
  all_goals cases hstack
  case entered hn    => exact hn.opens hr hw
  case passed hp hl  => exact hp.opens hr hl
  case ends hn       => exact hn.opens hr hw
  case meets hp hl _ => exact hp.opens hr hl

end Open

end Reading

-- A rule that is suggested is being called at the caret inside the rules of its path, and it is the
-- outermost preferred one.
theorem suggest_rules {cache : FirstSetCache} {a : Automaton} (hb : a.Built)
    (hc : cache.Faithful a) (s : Settings) (w : Window) (startRule : RuleIndex) (e : Evaluator)
    {rule : RuleIndex} {path : List RuleIndex}
    (h : (rule, path) ∈ (suggest cache a s w startRule e).fst.candidates.rules) :
    rule ∈ s.preferred ∧ (∀ r ∈ path, r ∉ s.preferred) ∧
      (path ++ [rule]).head? = some startRule ∧
      ∃ rules, path ++ [rule] <+: rules ∧ (Reading.ofWindow a w e).Open startRule rules := by
  rw [suggest_candidates] at h
  have ⟨event, hevent, hname⟩ := Candidates.exists_nominee_of_rule h
  have ⟨stack, hstack, hout⟩ := event.exists_stack_of_nominee? hname
  have ⟨hrule, hpath, hprefix⟩ := Settings.prefix_of_outermost? hout
  have ⟨root, hroot, hwit⟩ := Query.events_sound hb.wellFormed hc.lookup hevent
  have hopen := hwit.opens hroot hb.wellFormed hstack
  refine ⟨by simpa [Settings.isPreferred] using hrule,
    fun r hm => by simpa [Settings.isPreferred] using hpath r hm, ?_, stack, hprefix, hopen⟩
  obtain ⟨_, inner, _, _, _, hinner, _⟩ := hopen
  obtain ⟨rest, heq⟩ := hprefix
  cases path <;> simp_all

-- After the name the value is being called in the field.
theorem suggest_rules_value :
    (suggest .empty optionalValue (Settings.empty.prefer 1) afterName 0 .always).fst.candidates =
        ⟨[], [(1, [0])]⟩ ∧
      ∃ rules, [0, 1] <+: rules ∧
        (Reading.ofWindow optionalValue afterName .always).Open 0 rules := by
  have heq : (suggest .empty optionalValue (Settings.empty.prefer 1) afterName 0
      .always).fst.candidates = ⟨[], [(1, [0])]⟩ := by
    decide +kernel
  have hm : (1, [0]) ∈ (suggest .empty optionalValue (Settings.empty.prefer 1) afterName 0
      .always).fst.candidates.rules := by
    simp [heq]
  have ⟨_, _, _, hopen⟩ := suggest_rules optionalValue_built FirstSetCache.faithful_empty
    (Settings.empty.prefer 1) afterName 0 .always hm
  exact ⟨heq, hopen⟩

end Caret
