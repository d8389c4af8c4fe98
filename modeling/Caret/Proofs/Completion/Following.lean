import Caret.Proofs.Completion.Coverage

-- The tokens that a suggested token comes with are forced. They are what all transitions agree on
-- that can be met at the caret and consume the token, and whichever of these is taken, its
-- invocation cannot go on in another way.
namespace Caret

-- Where an invocation goes on after a transition, which for a call is when the call has returned.
def Transition.next (t : Transition) : StateId :=
  match t.label with
  | .rule _ follow => follow
  | _              => t.target

namespace Automaton

variable (a : Automaton)

-- A way on inside one invocation, with the labels on it.
inductive Route : StateId → List Label → StateId → Prop
  | nil {s} : Route s [] s
  | cons {s t labels s'} : a.Leaves s t → Route t.next labels s' → Route s (t.label :: labels) s'

-- Every way on consumes the tokens in order before it does anything else, and as long as some of
-- them are missing it can neither end nor turn off.
def Forces (s : StateId) (F : List TokenType) : Prop :=
  ∀ labels s', a.Route s labels s' →
    F.map .atom <+: labels.filter (· ≠ .epsilon) ∨
      labels.filter (· ≠ .epsilon) <+: F.map .atom ∧ a.OneWay s'

variable {a} {s target : StateId} {F F' : List TokenType} {t : Transition} {state : State}

theorem Leaves.eq_of_single (hl : a.Leaves s t) (hs : a.state? s = some state)
    {t' : Transition} (ht : state.transitions = [t']) : t = t' := by
  have ⟨_, hs', _, hm⟩ := hl
  cases hs.symm.trans hs'
  simpa [ht] using hm

theorem forces_nil : a.Forces s [] :=
  fun _ _ _ => .inl List.nil_prefix

-- What is forced is so up to any point.
theorem Forces.of_prefix (h : a.Forces s F) (hp : F' <+: F) : a.Forces s F' := by
  intro labels s' hr
  have hp' : F'.map Label.atom <+: F.map .atom := hp.map _
  rcases h labels s' hr with h | ⟨h, ho⟩
  · exact .inl (hp'.trans h)
  · exact (List.prefix_or_prefix_of_prefix hp' h).imp_right (⟨·, ho⟩)

theorem Forces.free (hs : a.state? s = some state) (hstop : state.isStop = false)
    (ht : state.transitions = [⟨target, .epsilon⟩]) (h : a.Forces target F) : a.Forces s F := by
  have ho : a.OneWay s := ⟨state, _, hs, hstop, ht, .inl rfl⟩
  intro labels s' hr
  cases hr
  case nil => exact .inr ⟨List.nil_prefix, ho⟩
  case cons hl hr =>
    cases hl.eq_of_single hs ht
    simpa using h _ _ hr

theorem Forces.atom {type : TokenType} (hs : a.state? s = some state)
    (hstop : state.isStop = false) (ht : state.transitions = [⟨target, .atom type⟩])
    (h : a.Forces target F) : a.Forces s (type :: F) := by
  have ho : a.OneWay s := ⟨state, _, hs, hstop, ht, .inr ⟨type, rfl⟩⟩
  intro labels s' hr
  cases hr
  case nil => exact .inr ⟨List.nil_prefix, ho⟩
  case cons hl hr =>
    cases hl.eq_of_single hs ht
    simpa [List.cons_prefix_cons] using h _ _ hr

theorem forcedFrom_forces {visited : List StateId} {n : Nat} :
    a.Forces s (a.forcedFrom visited n s) := by
  induction n generalizing visited s
  case zero => exact forces_nil
  case succ n hi =>
    unfold forcedFrom
    split
    case isTrue => exact forces_nil
    case isFalse =>
      split
      case h_1 => exact forces_nil
      case h_2 state hs =>
        split
        case isTrue => exact forces_nil
        case isFalse hstop =>
          have hstop : state.isStop = false := by simpa using hstop
          split
          case h_1 ht => exact hi.atom hs hstop ht
          case h_2 ht => exact hi.free hs hstop ht
          case h_3 => exact forces_nil

theorem forcedAfter_forces : a.Forces t.target (a.forcedAfter t) := by
  unfold forcedAfter
  split
  case h_1 => exact forcedFrom_forces
  case h_2 => exact forces_nil

end Automaton

section Suggest

variable {cache : FirstSetCache} {a : Automaton} (hb : a.Built) (hc : cache.Faithful a)
  (hp : a.Progressive) {s : Settings} (hs : s.preferred = []) {w : Window} {e : Evaluator}
  (ho : (Reading.ofWindow a w e).Ordinary) {startRule : RuleIndex} {t : TokenType}
  {F : List TokenType}

include hb hc hp hs ho

theorem following_agreed
    (h : (t, F) ∈ (suggest cache a s w startRule e).fst.candidates.tokens) :
    (∃ tr, (Reading.ofWindow a w e).Takes startRule tr t) ∧
      ((∀ tr, (Reading.ofWindow a w e).Takes startRule tr t → s.visible (a.forcedAfter tr) = F) ∨
        F = [] ∧ ∃ tr tr', (Reading.ofWindow a w e).Takes startRule tr t ∧
          (Reading.ofWindow a w e).Takes startRule tr' t ∧
          s.visible (a.forcedAfter tr) ≠ s.visible (a.forcedAfter tr')) := by
  rw [suggest_candidates] at h
  have ⟨⟨L, hL⟩, hagree⟩ := Candidates.merged_tokens.agrees t F h
  have ⟨hne, hi, rules, tr, _, hm, htr, _⟩ := exists_meets_of_offer hb hc s w startRule e hL
  refine ⟨⟨tr, rules, hm, htr⟩, hagree.imp (fun hall tr' htr' => ?_) ?_⟩
  · have ⟨rules', hm', hmatch⟩ := htr'
    exact hall _ (offer_of_meets hb hc hp hs ho hne hi hm' hmatch)
  · rintro ⟨rfl, L₁, L₂, hL₁, hL₂, hdiff⟩
    have ⟨_, _, rules₁, tr₁, _, hm₁, htr₁, he₁⟩ := exists_meets_of_offer hb hc s w startRule e hL₁
    have ⟨_, _, rules₂, tr₂, _, hm₂, htr₂, he₂⟩ := exists_meets_of_offer hb hc s w startRule e hL₂
    exact ⟨rfl, tr₁, tr₂, ⟨rules₁, hm₁, htr₁⟩, ⟨rules₂, hm₂, htr₂⟩, he₁ ▸ he₂ ▸ hdiff⟩

theorem suggest_following
    (h : (t, F) ∈ (suggest cache a s w startRule e).fst.candidates.tokens) :
    (∃ tr, (Reading.ofWindow a w e).Takes startRule tr t) ∧
      (∀ L, (∀ tr, (Reading.ofWindow a w e).Takes startRule tr t →
        s.visible (a.forcedAfter tr) = L) → F = L) ∧
      ((¬∃ L, ∀ tr, (Reading.ofWindow a w e).Takes startRule tr t →
        s.visible (a.forcedAfter tr) = L) → F = []) ∧
      (F ≠ [] → ∀ tr, (Reading.ofWindow a w e).Takes startRule tr t → a.Forces tr.target F) := by
  have ⟨⟨tr, htr⟩, hagree⟩ := following_agreed hb hc hp hs ho h
  refine ⟨⟨tr, htr⟩, fun L hall => ?_, fun hno => ?_, fun hF tr' htr' => ?_⟩
  · rcases hagree with hF | ⟨_, tr₁, tr₂, h₁, h₂, hdiff⟩
    · exact (hF tr htr).symm.trans (hall tr htr)
    · exact absurd ((hall tr₁ h₁).trans (hall tr₂ h₂).symm) hdiff
  · rcases hagree with hall | ⟨hF, _⟩
    · exact absurd ⟨F, hall⟩ hno
    · exact hF
  · rcases hagree with hall | ⟨hnil, _⟩
    · exact Automaton.forcedAfter_forces.of_prefix (hall tr' htr' ▸ List.takeWhile_prefix _)
    · exact absurd hnil hF

end Suggest

theorem suggest_following_brackets :
    (2, [3]) ∈ (suggest .empty brackets .empty afterName 0 .always).fst.candidates.tokens ∧
      ∃ tr, (Reading.ofWindow brackets afterName .always).Takes 0 tr 2 ∧
        brackets.Forces tr.target [3] := by
  have h : (2, [3]) ∈
      (suggest .empty brackets .empty afterName 0 .always).fst.candidates.tokens := by
    decide +kernel
  have ⟨⟨tr, htr⟩, _, _, hforces⟩ := suggest_following brackets_built FirstSetCache.faithful_empty
    brackets_progressive rfl afterName_ordinary h
  exact ⟨h, tr, htr, hforces (by simp) tr htr⟩

end Caret
