import Caret.Proofs.Completion.Coverage

-- Rules that can be empty. Before the caret a rule that ends without a token is passed, but at the
-- caret a rule that is called is only looked into. What follows the call can stand at the caret as
-- well, and yet is suggested only if it can also be met in another way.
namespace Caret

-- Where no rule that is called can begin with a call, no rule is left-recursive.
theorem Automaton.not_leftRecursive {a : Automaton}
    (h : ∀ r r', a.Called r → ¬a.LeftCalls r r') : ¬a.LeftRecursive := by
  intro ⟨r, hr⟩
  have ⟨r', hfirst, _⟩ := Relation.TransGen.head'_iff.mp hr
  have ⟨_, _, _, s, target, follow, _, _, hl⟩ := Relation.TransGen.tail'_iff.mp hr
  exact h r r' ⟨s, target, follow, hl⟩ hfirst

namespace Reading

variable {x : Reading} {s u target follow : StateId} {startRule r : RuleIndex}
  {rules : List RuleIndex} {t : Transition} {type : TokenType}

-- At the caret all that is free can be walked.
theorem path_of_free (h : x.automaton.Free s u) :
    x.Path anywhere x.caret ⟨s, x.caret⟩ ⟨u, x.caret⟩ := by
  induction h
  case refl => exact .refl
  case step hl hf hi =>
    cases hf
    case inl hf => exact hi.move hl (.free hf)
    case inr hf =>
      have ⟨_, hf⟩ := hf
      exact hi.move hl (.test hf (.inr (Nat.le_refl _)))
  case call hl _ hs hi hc => exact hi.call hl trivial hc hs

-- What follows a rule that can be empty can stand at the caret in its place.
theorem MeetsDirectly.viable (hw : x.automaton.WellFormed)
    (h : x.MeetsDirectly startRule rules ⟨target, .rule r follow⟩) (hr : x.automaton.Nullable r)
    (hl : x.automaton.Leaves follow t) (ht : x.automaton.Matches t type) :
    x.Viable startRule rules type := by
  have ⟨root, inner, s, hroot, hrules, ⟨start, entry, hn, hp⟩, hcall⟩ := h
  have ⟨target', f, hstart, hfree, hstop⟩ := hr
  cases (hw.ruleStart?_eq hcall).symm.trans hstart
  have hfollow : x.Path anywhere entry ⟨start, entry⟩ ⟨follow, x.caret⟩ :=
    hp.anywhere.call hcall trivial (path_of_free hfree) hstop
  exact ⟨t, ⟨root, inner, follow, hroot, hrules, ⟨start, entry, hn.anywhere, hfollow⟩, hl⟩, ht⟩

end Reading

section Suggest

variable {cache : FirstSetCache} {a : Automaton} {s : Settings} {w : Window} {e : Evaluator}
  {startRule : RuleIndex} {t : TokenType}

-- Tokens are suggested that can be met without passing a rule at the caret, and no others.
theorem suggested_iff (hb : a.Built) (hc : cache.Faithful a) (hlr : ¬a.LeftRecursive)
    (hs : s.preferred = []) (hi : s.ignored = [])
    (hspare : (Query.ofWindow a w e cache).SparesWildcards) :
    (∃ F, (t, F) ∈ (suggest cache a s w startRule e).fst.candidates.tokens) ↔
      t ≠ .epsilon ∧ ∃ rules tr, (Reading.ofWindow a w e).MeetsDirectly startRule rules tr ∧
        a.Matches tr t := by
  rw [suggest_candidates]
  constructor
  case mp =>
    intro ⟨F, hF⟩
    have ⟨⟨L, hL⟩, _⟩ := Candidates.merged_tokens.agrees t F hF
    have ⟨hne, _, rules, tr, _, hm, htr, _⟩ :=
      exists_meetsDirectly_of_offer hb hc s w startRule e hL
    exact ⟨hne, rules, tr, hm, htr⟩
  case mpr =>
    intro ⟨hne, rules, tr, hm, htr⟩
    have hi : s.isIgnored t = false := by simp [Settings.isIgnored, hi]
    exact Candidates.merged_tokens.covers t _
      (offer_of_meetsDirectly hb hc hlr hs hspare hne hi hm htr)

-- What follows a call can stand at the caret if the rule that is called can be empty. It is all
-- suggested just if all of it is met in another way.
theorem suggest_directly (hb : a.Built) (hc : cache.Faithful a) (hlr : ¬a.LeftRecursive)
    (s : Settings) (hs : s.preferred = []) (hi : s.ignored = []) (startRule : RuleIndex)
    (hspare : (Query.ofWindow a w e cache).SparesWildcards) :
    (∀ t, (∃ F, (t, F) ∈ (suggest cache a s w startRule e).fst.candidates.tokens) ↔
      t ≠ .epsilon ∧ ∃ rules tr, (Reading.ofWindow a w e).MeetsDirectly startRule rules tr ∧
        a.Matches tr t) ∧
    ∀ rules target r follow,
      (Reading.ofWindow a w e).MeetsDirectly startRule rules ⟨target, .rule r follow⟩ →
      a.Nullable r →
        (∀ tr t, a.Leaves follow tr → a.Matches tr t →
          (Reading.ofWindow a w e).Viable startRule rules t) ∧
        ((∀ tr t, a.Leaves follow tr → a.Matches tr t → t ≠ .epsilon →
            ∃ F, (t, F) ∈ (suggest cache a s w startRule e).fst.candidates.tokens) ↔
          ∀ tr t, a.Leaves follow tr → a.Matches tr t → t ≠ .epsilon →
            ∃ rules tr', (Reading.ofWindow a w e).MeetsDirectly startRule rules tr' ∧
              a.Matches tr' t) := by
  have hiff {t} := @suggested_iff cache a s w e startRule t hb hc hlr hs hi hspare
  refine ⟨fun t => hiff, fun rules target r follow hcall hr => ⟨fun tr t hl ht => ?_, ?_⟩⟩
  · exact hcall.viable hb.wellFormed hr hl ht
  · constructor
    case mp => exact fun h tr t hl ht hne => (hiff.mp (h tr t hl ht hne)).right
    case mpr => exact fun h tr t hl ht hne => hiff.mpr ⟨hne, h tr t hl ht hne⟩

end Suggest

section Optional

-- A name, a value that may be missing, and an end; or the same without the name.
def optionalValue : Automaton where
  id         := ⟨0⟩
  states     := [
    ⟨0, .ruleStart, 0, [⟨6, .atom 1⟩]⟩,
    ⟨1, .ruleStop, 0, []⟩,
    ⟨2, .ruleStart, 1, [⟨3, .atom 2⟩, ⟨3, .epsilon⟩]⟩,
    ⟨3, .ruleStop, 1, []⟩,
    ⟨4, .ruleStart, 2, [⟨2, .rule 1 8⟩]⟩,
    ⟨5, .ruleStop, 2, []⟩,
    ⟨6, .basic, 0, [⟨2, .rule 1 7⟩]⟩,
    ⟨7, .basic, 0, [⟨1, .atom 3⟩]⟩,
    ⟨8, .basic, 2, [⟨5, .atom 3⟩]⟩
  ]
  rules      := [⟨"field", 0, 1⟩, ⟨"value", 2, 3⟩, ⟨"rest", 4, 5⟩]
  vocabulary := .empty
  maxType    := 3

theorem optionalValue_built : optionalValue.Built := by
  refine ⟨[.addRule "field", .addRule "value", .addRule "rest", .addState 0 .basic,
    .addState 0 .basic, .addState 2 .basic, .addTransition 0 6 (.atom 1),
    .addTransition 2 3 (.atom 2), .addTransition 2 3 .epsilon, .addCall 4 1 8, .addCall 6 1 7,
    .addTransition 7 1 (.atom 3), .addTransition 8 5 (.atom 3)], ⟨0⟩, ?_, rfl⟩
  simp [BuilderCall.Canonical, Label.Canonical]

-- Only the value is called, and not by itself.
theorem optionalValue_calls : ∀ state ∈ optionalValue.states, ∀ target r follow,
    ⟨target, .rule r follow⟩ ∈ state.transitions → r = 1 ∧ state.rule ≠ 1 := by
  simp +contextual [optionalValue]

theorem optionalValue_free {s u : StateId} (h : optionalValue.Free s u) (hs : s = 2) :
    u = 2 ∨ u = 3 := by
  -- In the rule of the value only its first state can be left, and only to the last one.
  have hleave {u t} (hl : optionalValue.Leaves u t) (hu : u = 2 ∨ u = 3) :
      t = ⟨3, .atom 2⟩ ∨ t = ⟨3, .epsilon⟩ := by
    have ⟨state, hs, hstop, hm⟩ := hl
    cases hu <;> subst_vars <;> cases hs
    case inl => simpa using hm
    case inr => simp at hm
  induction h
  case refl => exact .inl hs
  case step hl _ hi => exact .inr (by cases hleave hl (hi hs) <;> subst_vars <;> rfl)
  case call hl _ _ hi _ => exact absurd (hleave hl (hi hs)) (by simp)

theorem optionalValue_not_leftRecursive : ¬optionalValue.LeftRecursive := by
  refine Automaton.not_leftRecursive fun r r' ⟨_, target, follow, _, hs, _, hm⟩ hc => ?_
  have ⟨hr, _⟩ := optionalValue_calls _ (List.mem_of_getElem? hs) target r follow hm
  subst hr
  have ⟨start, s, target, follow, hr, hf, state, hs, _, hm⟩ := hc
  cases hr
  have ⟨_, hn⟩ := optionalValue_calls _ (List.mem_of_getElem? hs) target r' follow hm
  cases optionalValue_free hf rfl <;> subst_vars <;> cases hs <;> exact hn rfl

theorem optionalValue_nullable : optionalValue.Nullable 1 :=
  ⟨2, 3, rfl, Automaton.Free.refl.step (t := ⟨3, .epsilon⟩) ⟨_, rfl, rfl, by simp⟩ (.inl rfl),
    _, rfl, rfl⟩

theorem optionalValue_spares :
    (Query.ofWindow optionalValue afterName .always .empty).SparesWildcards := by
  refine Query.sparesWildcards_of_ordinary optionalValue_built.wellFormed
    FirstSetCache.faithful_empty.lookup (.inl fun i type hi ht => ?_)
  cases Nat.lt_one_iff.mp hi
  cases ht
  decide

theorem optionalValue_path {through : Nat → Prop} :
    (Reading.ofWindow optionalValue afterName .always).Path through 0 ⟨0, 0⟩ ⟨6, 1⟩ :=
  Reading.Path.refl.move (t := ⟨6, .atom 1⟩) ⟨_, rfl, rfl, by simp⟩
    (.consume (by decide) rfl (.inr ⟨_, rfl, IntervalSet.mem_singleton.mpr rfl⟩))

-- After the name the value is called.
theorem optionalValue_meets :
    (Reading.ofWindow optionalValue afterName .always).MeetsDirectly 0 [0] ⟨2, .rule 1 7⟩ :=
  ⟨0, [], 6, rfl, rfl, ⟨0, 0, .root, optionalValue_path⟩, _, rfl, rfl, by simp⟩

theorem optionalValue_matches {target : StateId} {type : TokenType} :
    optionalValue.Matches ⟨target, .atom type⟩ type :=
  ⟨_, rfl, IntervalSet.mem_singleton.mpr rfl⟩

theorem suggest_directly_optionalValue :
    (∃ F, (2, F) ∈
        (suggest .empty optionalValue .empty afterName 0 .always).fst.candidates.tokens) ∧
      (Reading.ofWindow optionalValue afterName .always).Viable 0 [0] 3 := by
  have ⟨hiff, hcall⟩ := suggest_directly optionalValue_built FirstSetCache.faithful_empty
    optionalValue_not_leftRecursive .empty rfl rfl 0 optionalValue_spares
  have ⟨hviable, _⟩ := hcall [0] 2 1 7 optionalValue_meets optionalValue_nullable
  have hcalls : optionalValue.Leaves 6 ⟨2, .rule 1 7⟩ := ⟨_, rfl, rfl, List.mem_cons_self⟩
  have hvalue : (Reading.ofWindow optionalValue afterName .always).MeetsDirectly 0 [0, 1]
      ⟨3, .atom 2⟩ :=
    ⟨0, [1], 2, rfl, rfl, ⟨2, 1, .call .root optionalValue_path hcalls, .refl⟩,
      _, rfl, rfl, List.mem_cons_self⟩
  refine ⟨(hiff 2).mpr ⟨by decide, _, _, hvalue, optionalValue_matches⟩, ?_⟩
  exact hviable ⟨1, .atom 3⟩ 3 ⟨_, rfl, rfl, by simp⟩ optionalValue_matches

-- Nothing is written yet.
def blank : Window where
  tokens   := [.eof 0 0 0]
  nonempty := by simp

-- The end can follow a value that is missing, after the name as well as in place of the rest.
theorem suggest_hides_follow :
    optionalValue.Built ∧ ¬optionalValue.LeftRecursive ∧
      optionalValue.Leaves 2 ⟨3, .epsilon⟩ ∧ optionalValue.ruleStop? 1 = some 3 ∧
      (Reading.ofWindow optionalValue afterName .always).MeetsDirectly 0 [0] ⟨2, .rule 1 7⟩ ∧
      optionalValue.Leaves 7 ⟨1, .atom 3⟩ ∧ optionalValue.Matches ⟨1, .atom 3⟩ 3 ∧
      (suggest .empty optionalValue .empty afterName 0 .always).fst.candidates.tokens =
        [(2, [])] ∧
      (Reading.ofWindow optionalValue blank .always).MeetsDirectly 2 [2] ⟨2, .rule 1 8⟩ ∧
      optionalValue.Leaves 8 ⟨5, .atom 3⟩ ∧ optionalValue.Matches ⟨5, .atom 3⟩ 3 ∧
      (suggest .empty optionalValue .empty blank 2 .always).fst.candidates.tokens =
        [(2, [])] := by
  refine ⟨optionalValue_built, optionalValue_not_leftRecursive, ⟨_, rfl, rfl, by simp⟩, rfl,
    optionalValue_meets, ⟨_, rfl, rfl, by simp⟩, optionalValue_matches, by decide +kernel, ?_,
    ⟨_, rfl, rfl, by simp⟩, optionalValue_matches, by decide +kernel⟩
  exact ⟨4, [], 4, rfl, rfl, ⟨4, 0, .root, .refl⟩, _, rfl, rfl, by simp⟩

end Optional
end Caret
