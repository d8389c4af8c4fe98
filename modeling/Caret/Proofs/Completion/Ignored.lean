import Caret.Proofs.Completion.Bounds

-- Ignored tokens are left out and nothing else. A walk does not know of them, a rule is suggested
-- as it would be without them, and a token that stays comes with what it would come with, up to the
-- first ignored one.
namespace Caret

namespace Settings

variable (s : Settings)

def ignoreNone : Settings :=
  { s with ignored := [] }

-- The second list is the longest front part of the first one in which nothing is ignored.
structure Longest (L F : List TokenType) : Prop where
  front   : F <+: L
  clear   : ∀ t ∈ F, t ∉ s.ignored
  longest : ∀ G, G <+: L → (∀ t ∈ G, t ∉ s.ignored) → G <+: F

variable {s} {L : List TokenType}

@[simp] theorem visible_ignoreNone : s.ignoreNone.visible L = L := by
  simp [visible, isIgnored, ignoreNone, List.takeWhile_eq_self_iff]

theorem longest_visible : s.Longest L (s.visible L) where
  front      := List.takeWhile_prefix _
  clear t hm := by simpa [isIgnored] using List.mem_takeWhile_imp hm
  longest G hG hclear := by
    obtain ⟨rest, rfl⟩ := hG
    unfold visible
    rw [List.takeWhile_append_of_pos (by simpa [isIgnored] using hclear)]
    exact List.prefix_append ..

end Settings

-- What is offered is what would be if nothing were ignored, without the ignored tokens.
theorem Event.offers_ignored {s : Settings} (e : Event) : e.offers s =
    ((e.offers s.ignoreNone).filter (!s.isIgnored ·.fst)).map (.map id s.visible) := by
  cases e
  case offered stack symbols following =>
    have houter : s.ignoreNone.outermost? stack = s.outermost? stack := rfl
    simp only [offers, houter]
    split
    case isTrue =>
      simp only [List.filter_map, List.map_map, List.filter_filter, Settings.visible_ignoreNone]
      congr 1
      refine List.filter_congr fun t _ => ?_
      simp [Settings.isIgnored, Settings.ignoreNone, Bool.and_comm]
    case isFalse => rfl
  all_goals rfl

theorem Event.nominee?_ignoreNone {s : Settings} (e : Event) :
    e.nominee? s.ignoreNone = e.nominee? s := by
  cases e <;> rfl

namespace Candidates

variable {s : Settings} {events : List Event} {offers ts us : List Offer} {t : TokenType}
  {F L : List TokenType}

theorem offers_ignored : events.flatMap (·.offers s) =
    ((events.flatMap (·.offers s.ignoreNone)).filter (!s.isIgnored ·.fst)).map
      (.map id s.visible) := by
  induction events
  case nil => rfl
  case cons e events hi =>
    rw [List.flatMap_cons, List.flatMap_cons, List.filter_append, List.map_append, ← hi,
      ← e.offers_ignored]

-- An ignored token is merged into one of two lists only, and any other one stands in both or none.
theorem mergeAll_keys_filter {p : TokenType → Bool} {f : List TokenType → List TokenType}
    (h : ts.map Prod.fst = (us.map Prod.fst).filter p) :
    (mergeAll ((offers.filter (p ·.fst)).map (.map id f)) ts).map Prod.fst =
      ((mergeAll offers us).map Prod.fst).filter p := by
  induction offers generalizing ts us
  case nil => exact h
  case cons offer offers hi =>
    obtain ⟨t, L⟩ := offer
    by_cases ht : p t
    case pos =>
      rw [List.filter_cons_of_pos (by exact ht)]
      refine hi ?_
      have hmem : t ∈ ts.map Prod.fst ↔ t ∈ us.map Prod.fst := by simp [h, ht]
      simp only [mergeToken_keys, Prod.map, id, hmem]
      split
      case isTrue  => exact h
      case isFalse => simp [h, ht]
    case neg =>
      rw [List.filter_cons_of_neg (by exact ht)]
      refine hi ?_
      rw [mergeToken_keys]
      split
      case isTrue  => exact h
      case isFalse => simp [h, ht]

theorem ofEvents_rules_ignoreNone :
    (ofEvents s.ignoreNone events).rules = (ofEvents s events).rules := by
  simp only [ofEvents_rules, Event.nominee?_ignoreNone]

theorem ofEvents_keys : (ofEvents s events).tokens.map Prod.fst =
    ((ofEvents s.ignoreNone events).tokens.map Prod.fst).filter (!s.isIgnored ·) := by
  rw [ofEvents_tokens, ofEvents_tokens, offers_ignored]
  exact mergeAll_keys_filter (p := (!s.isIgnored ·)) rfl

-- All offers of a token that forces something agree, and so they do when they are cut off.
theorem eq_visible_of_mem (hF : (t, F) ∈ (ofEvents s events).tokens)
    (hL : (t, L) ∈ (ofEvents s.ignoreNone events).tokens) (hne : L ≠ []) : F = s.visible L := by
  have hall := (merged_tokens.agrees t L hL).forall_of_ne_nil hne
  refine (merged_tokens.agrees t F hF).eq_of_forall fun F' hm => ?_
  rw [offers_ignored] at hm
  obtain ⟨⟨t', L'⟩, hm', he⟩ := List.mem_map.mp hm
  cases he
  rw [hall L' (List.mem_filter.mp hm').left]

end Candidates

-- Two requests that differ in what they ignore.
theorem suggest_ignored (cache : FirstSetCache) (a : Automaton) (s : Settings) (w : Window)
    (startRule : RuleIndex) (e : Evaluator) :
    (suggest cache a s w startRule e).fst.candidates.rules =
      (suggest cache a s.ignoreNone w startRule e).fst.candidates.rules ∧
    (suggest cache a s w startRule e).fst.statesProcessed =
      (suggest cache a s.ignoreNone w startRule e).fst.statesProcessed ∧
    (suggest cache a s w startRule e).fst.candidates.tokens.map Prod.fst =
      ((suggest cache a s.ignoreNone w startRule e).fst.candidates.tokens.map Prod.fst).filter
        (· ∉ s.ignored) ∧
    ∀ t F L, (t, F) ∈ (suggest cache a s w startRule e).fst.candidates.tokens →
      (t, L) ∈ (suggest cache a s.ignoreNone w startRule e).fst.candidates.tokens → L ≠ [] →
      s.Longest L F := by
  simp only [suggest_eq]
  refine ⟨Candidates.ofEvents_rules_ignoreNone.symm, trivial, ?_, fun t F L hF hL hne => ?_⟩
  · simpa [Settings.isIgnored] using Candidates.ofEvents_keys
  · exact Candidates.eq_visible_of_mem hF hL hne ▸ Settings.longest_visible

end Caret
