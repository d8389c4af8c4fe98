import Caret.Proofs.Completion.Trace
import Caret.Proofs.Interval.Members
import Mathlib.Data.List.Nodup
import Mathlib.Data.List.TakeWhile

-- What the suggestions are made of. Every event makes some offers, and the offers of a walk are
-- merged from left to right: a token that was offered keeps the tokens after it that all its offers
-- agree on. An event inside of a preferred rule names that rule instead, and the first to name it
-- counts.
namespace Caret

-- A token and the tokens forced after it.
abbrev Offer := TokenType × List TokenType

-- A rule and the rules around it.
abbrev Nominee := RuleIndex × List RuleIndex

namespace Settings

variable {s : Settings} {stack : List RuleIndex}

theorem outermost?_eq_none :
    s.outermost? stack = none ↔ ∀ r ∈ stack, s.isPreferred r = false := by
  unfold outermost?
  split
  case h_1 h => simpa [List.dropWhile_eq_nil_iff] using h
  case h_2 rule rest h =>
    refine ⟨by simp, fun hn => ?_⟩
    rw [List.dropWhile_eq_nil_iff.mpr (by simpa using hn)] at h
    contradiction

-- The outermost preferred rule comes right after rules that are not preferred.
theorem prefix_of_outermost? {rule : RuleIndex} {path : List RuleIndex}
    (h : s.outermost? stack = some (rule, path)) :
    s.isPreferred rule ∧ (∀ r ∈ path, s.isPreferred r = false) ∧ path ++ [rule] <+: stack := by
  unfold outermost? at h
  split at h
  case h_1 => contradiction
  case h_2 rule' rest hd =>
    cases h
    refine ⟨?_, fun r hm => by simpa using List.mem_takeWhile_imp hm, rest, ?_⟩
    · have hrule := List.head_dropWhile_not (l := stack) (!s.isPreferred ·) (by simp [hd])
      simpa [hd] using hrule
    · rw [List.append_assoc, List.singleton_append, ← hd, List.takeWhile_append_dropWhile]

-- What is inside of a preferred rule does not count.
theorem outermost?_append {nominee : Nominee} {inner : List RuleIndex}
    (h : s.outermost? stack = some nominee) : s.outermost? (stack ++ inner) = some nominee := by
  unfold outermost? at h ⊢
  split at h
  case h_1 => contradiction
  case h_2 rule rest hd =>
    have hlt : (stack.takeWhile (!s.isPreferred ·)).length ≠ stack.length := by
      intro he
      have ht := List.takeWhile_append_dropWhile (p := (!s.isPreferred ·)) (l := stack)
      have hlen := congrArg List.length ht
      simp [hd] at hlen
      omega
    simp [List.dropWhile_append, List.takeWhile_append, hd, hlt, ← h]

end Settings

-- What an event offers. Inside a preferred rule nothing is.
def Event.offers (s : Settings) : Event → List Offer
  | .offered stack symbols following =>
    if s.outermost? stack = none
    then (symbols.toList.filter fun type => ¬(type = .epsilon ∨ s.isIgnored type)).map
      (·, s.visible following)
    else []
  | _ => []

-- The rule that an event names. A rule that is entered is named only if it is preferred itself.
def Event.nominee? (s : Settings) : Event → Option Nominee
  | .entered stack => if stack.getLast?.any s.isPreferred then s.outermost? stack else none
  | .passed stack | .offered stack _ _ => s.outermost? stack
  | _ => none

namespace Candidates

variable {s : Settings} {c : Candidates} {e : Event} {events : List Event}
  {offers offers' ts : List Offer} {t u : TokenType} {f F L : List TokenType}

-- All offers of the token agree on what comes after it, or they do not and nothing is forced.
def Agreed (offers : List Offer) (t : TokenType) (F : List TokenType) : Prop :=
  (∃ L, (t, L) ∈ offers) ∧
    ((∀ L, (t, L) ∈ offers → L = F) ∨
      F = [] ∧ ∃ L L', (t, L) ∈ offers ∧ (t, L') ∈ offers ∧ L ≠ L')

structure Merged (offers ts : List Offer) : Prop where
  keys   : (ts.map Prod.fst).Nodup
  covers : ∀ t L, (t, L) ∈ offers → ∃ F, (t, F) ∈ ts
  agrees : ∀ t F, (t, F) ∈ ts → Agreed offers t F

def mergeAll (offers ts : List Offer) : List Offer :=
  offers.foldl (fun ts offer => mergeToken offer.fst offer.snd ts) ts

def nominate (rules : List Nominee) (nominee : Nominee) : List Nominee :=
  if rules.any (·.fst = nominee.fst) then rules else rules ++ [nominee]

theorem foldl_addVisible_tokens {types : List TokenType} :
    (types.foldl (fun c type => c.addVisible s f type) c).tokens =
      mergeAll ((types.filter fun type => ¬(type = .epsilon ∨ s.isIgnored type)).map (·, f))
        c.tokens := by
  induction types generalizing c
  case nil => rfl
  case cons type types hi =>
    rw [List.foldl_cons, hi, List.filter_cons, addVisible]
    by_cases h : type = .epsilon ∨ s.isIgnored type
    case pos => simp [h]
    case neg => simp [h, mergeAll, addToken]

theorem addRule_tokens {rule : RuleIndex} {path : List RuleIndex} :
    (c.addRule rule path).tokens = c.tokens := by
  unfold addRule
  split <;> rfl

theorem addPreferred_tokens {stack : List RuleIndex} :
    (c.addPreferred s stack).tokens = c.tokens := by
  unfold addPreferred
  split
  case h_1 => rfl
  case h_2 => exact addRule_tokens

theorem observe_tokens : (c.observe s e).tokens = mergeAll (e.offers s) c.tokens := by
  cases e
  case offered stack symbols following =>
    simp only [observe, offer, Event.offers]
    split
    case h_1 h => simp [h, mergeAll, addRule_tokens]
    case h_2 h => rw [if_pos h, foldl_addVisible_tokens]
  case entered stack =>
    simp only [observe]
    split
    case isTrue  => exact addPreferred_tokens
    case isFalse => rfl
  case passed stack => exact addPreferred_tokens
  all_goals rfl

theorem ofEvents_tokens :
    (ofEvents s events).tokens = mergeAll (events.flatMap (·.offers s)) [] := by
  have h (c : Candidates) : (events.foldl (fun c e => c.observe s e) c).tokens =
      mergeAll (events.flatMap (·.offers s)) c.tokens := by
    induction events generalizing c
    case nil => rfl
    case cons e events hi => simp [hi, observe_tokens, mergeAll]
  exact h empty

theorem addRule_rules {rule : RuleIndex} {path : List RuleIndex} :
    (c.addRule rule path).rules = nominate c.rules (rule, path) := by
  unfold addRule hasRule nominate
  split <;> rfl

theorem addPreferred_rules {stack : List RuleIndex} :
    (c.addPreferred s stack).rules = (s.outermost? stack).elim c.rules (nominate c.rules) := by
  unfold addPreferred
  cases s.outermost? stack
  case none => rfl
  case some => exact addRule_rules

theorem foldl_addVisible_rules {types : List TokenType} :
    (types.foldl (fun c type => c.addVisible s f type) c).rules = c.rules := by
  induction types generalizing c
  case nil => rfl
  case cons type types hi =>
    have hadd : (c.addVisible s f type).rules = c.rules := by
      unfold addVisible
      split <;> rfl
    exact hi.trans hadd

theorem observe_rules :
    (c.observe s e).rules = (e.nominee? s).elim c.rules (nominate c.rules) := by
  cases e
  case entered stack =>
    simp only [observe, Event.nominee?]
    split
    case isTrue  => exact addPreferred_rules
    case isFalse => rfl
  case passed stack => exact addPreferred_rules
  case offered stack symbols following =>
    simp only [observe, offer, Event.nominee?]
    cases s.outermost? stack
    case none => exact foldl_addVisible_rules
    case some => exact addRule_rules
  all_goals rfl

theorem ofEvents_rules :
    (ofEvents s events).rules = (events.filterMap (·.nominee? s)).foldl nominate [] := by
  have h (c : Candidates) : (events.foldl (fun c e => c.observe s e) c).rules =
      (events.filterMap (·.nominee? s)).foldl nominate c.rules := by
    induction events generalizing c
    case nil => rfl
    case cons e events hi =>
      rw [List.foldl_cons, hi, observe_rules, List.filterMap_cons]
      cases e.nominee? s <;> rfl
  exact h empty

section Nominate

variable {rules nominees : List Nominee} {rule : RuleIndex} {path : List RuleIndex}

theorem mem_of_mem_nominate {nominee : Nominee} (h : nominee ∈ nominees.foldl nominate rules) :
    nominee ∈ rules ∨ nominee ∈ nominees := by
  induction nominees generalizing rules
  case nil => exact .inl h
  case cons n nominees hi =>
    rcases hi h with h | h
    · unfold nominate at h
      split at h
      case isTrue => exact .inl h
      case isFalse =>
        rcases List.mem_append.mp h with h | h
        · exact .inl h
        · exact .inr (List.mem_singleton.mp h ▸ List.mem_cons_self)
    · exact .inr (List.mem_cons_of_mem _ h)

-- A rule that is named is listed, if not with the same path.
theorem exists_mem_nominate (h : rule ∈ (rules ++ nominees).map Prod.fst) :
    ∃ path, (rule, path) ∈ nominees.foldl nominate rules := by
  induction nominees generalizing rules
  case nil => simpa using h
  case cons n nominees hi =>
    refine hi ?_
    unfold nominate
    split
    case isTrue hn =>
      have ⟨n', hm, he⟩ := List.any_eq_true.mp hn
      simp only [List.map_append, List.map_cons, List.mem_append, List.mem_cons] at h ⊢
      rcases h with h | rfl | h
      · exact .inl h
      · exact .inl (List.mem_map.mpr ⟨n', hm, by simpa using he⟩)
      · exact .inr h
    case isFalse => simpa using h

theorem exists_nominee_of_rule (h : (rule, path) ∈ (ofEvents s events).rules) :
    ∃ e ∈ events, e.nominee? s = some (rule, path) := by
  rw [ofEvents_rules] at h
  exact List.mem_filterMap.mp ((mem_of_mem_nominate h).resolve_left List.not_mem_nil)

theorem exists_rule_of_nominee (he : e ∈ events) (h : e.nominee? s = some (rule, path)) :
    ∃ path', (rule, path') ∈ (ofEvents s events).rules := by
  rw [ofEvents_rules]
  refine exists_mem_nominate (List.mem_map.mpr ⟨(rule, path), ?_, rfl⟩)
  exact List.mem_filterMap.mpr ⟨e, he, h⟩

end Nominate

-- A token that is known stays in its place, and another one goes to the end.
theorem mergeToken_cases (t : TokenType) (f : List TokenType) (ts : List Offer) :
    t ∉ ts.map Prod.fst ∧ mergeToken t f ts = ts ++ [(t, f)] ∨
      ∃ before known after, ts = before ++ (t, known) :: after ∧
        mergeToken t f ts = before ++ (t, if known = f then known else []) :: after := by
  induction ts
  case nil => exact .inl ⟨by simp, rfl⟩
  case cons offer ts hi =>
    obtain ⟨u, known⟩ := offer
    unfold mergeToken
    split
    case isTrue h => exact .inr ⟨[], known, ts, by simp [h], by simp [h]⟩
    case isFalse h =>
      rcases hi with ⟨hn, he⟩ | ⟨before, known', after, rfl, he⟩
      · exact .inl ⟨by simp_all [eq_comm], by simp [he]⟩
      · exact .inr ⟨(u, known) :: before, known', after, rfl, by simp [he]⟩

theorem mergeToken_keys (t : TokenType) (f : List TokenType) (ts : List Offer) :
    (mergeToken t f ts).map Prod.fst =
      if t ∈ ts.map Prod.fst then ts.map Prod.fst else ts.map Prod.fst ++ [t] := by
  rcases mergeToken_cases t f ts with ⟨hn, he⟩ | ⟨before, known, after, rfl, he⟩
  case inl => rw [if_neg hn, he, List.map_append, List.map_singleton]
  case inr => simp [he]

theorem Agreed.append (h : Agreed offers u F) (hne : u ≠ t) :
    Agreed (offers ++ [(t, f)]) u F := by
  have hm (L : List TokenType) : (u, L) ∈ offers ++ [(t, f)] ↔ (u, L) ∈ offers := by
    simp [hne]
  simpa [Agreed, hm] using h

theorem Merged.nil : Merged [] [] := by
  constructor <;> simp

-- The first offer of a token.
theorem Merged.first (h : Merged offers ts) (hn : t ∉ ts.map Prod.fst) :
    Merged (offers ++ [(t, f)]) (ts ++ [(t, f)]) := by
  have hnew (L : List TokenType) : (t, L) ∉ offers := fun hm =>
    have ⟨F, hF⟩ := h.covers t L hm
    hn (List.mem_map_of_mem hF)
  constructor
  case keys =>
    rw [List.map_append]
    exact List.nodup_append.mpr ⟨h.keys, by simp, by rintro _ hm _ ht rfl; simp_all⟩
  case covers =>
    intro u L hm
    rcases List.mem_append.mp hm with hm | hm
    · exact (h.covers u L hm).imp fun _ => List.mem_append_left _
    · exact ⟨L, List.mem_append_right _ hm⟩
  case agrees =>
    intro u F hm
    rcases List.mem_append.mp hm with hm | hm
    · exact (h.agrees u F hm).append fun he => hn (he ▸ List.mem_map_of_mem hm)
    · cases List.mem_singleton.mp hm
      exact ⟨⟨f, by simp⟩, .inl fun L hm => by simpa [hnew] using hm⟩

theorem Agreed.again {known : List TokenType} (h : Agreed offers t known) :
    Agreed (offers ++ [(t, f)]) t (if known = f then known else []) := by
  have hold {L : List TokenType} (hm : (t, L) ∈ offers) : (t, L) ∈ offers ++ [(t, f)] :=
    List.mem_append_left _ hm
  have hlast : (t, f) ∈ offers ++ [(t, f)] := by simp
  have ⟨⟨L, hL⟩, hag⟩ := h
  refine ⟨⟨L, hold hL⟩, ?_⟩
  split
  case isTrue he =>
    subst he
    refine hag.imp (fun hall L hm => ?_) fun ⟨he, L, L', hL, hL', hne⟩ => ?_
    · rcases List.mem_append.mp hm with hm | hm
      · exact hall L hm
      · cases List.mem_singleton.mp hm
        rfl
    · exact ⟨he, L, L', hold hL, hold hL', hne⟩
  case isFalse hne =>
    refine .inr ⟨rfl, ?_⟩
    rcases hag with hall | ⟨_, L, L', hL, hL', hne'⟩
    · exact ⟨L, f, hold hL, hlast, hall L hL ▸ hne⟩
    · exact ⟨L, L', hold hL, hold hL', hne'⟩

theorem Merged.again {before after : List Offer} {known : List TokenType}
    (h : Merged offers (before ++ (t, known) :: after)) :
    Merged (offers ++ [(t, f)]) (before ++ (t, if known = f then known else []) :: after) := by
  have hne {u F} (hm : (u, F) ∈ before ∨ (u, F) ∈ after) : u ≠ t := by
    have hk := h.keys
    rw [List.map_append, List.map_cons, List.nodup_middle, List.nodup_cons] at hk
    rintro rfl
    have hin {ts : List Offer} (hm : (u, F) ∈ ts) : u ∈ ts.map Prod.fst :=
      List.mem_map.mpr ⟨(u, F), hm, rfl⟩
    exact hk.left (List.mem_append.mpr (hm.imp hin hin))
  constructor
  case keys => simpa using h.keys
  case covers =>
    intro u L hm
    by_cases hu : u = t
    · exact ⟨if known = f then known else [], by simp [hu]⟩
    · have ⟨F, hF⟩ := h.covers u L (by simpa [hu] using hm)
      exact ⟨F, by simpa [hu] using hF⟩
  case agrees =>
    intro u F hm
    rcases List.mem_append.mp hm with hm' | hm'
    · exact (h.agrees u F (by simp [hm'])).append (hne (.inl hm'))
    · rcases List.mem_cons.mp hm' with he | hm'
      · cases he
        exact (h.agrees t known (by simp)).again
      · exact (h.agrees u F (by simp [hm'])).append (hne (.inr hm'))

theorem Merged.snoc (h : Merged offers ts) : Merged (offers ++ [(t, f)]) (mergeToken t f ts) := by
  rcases mergeToken_cases t f ts with ⟨hn, he⟩ | ⟨before, known, after, rfl, he⟩
  case inl => exact he ▸ h.first hn
  case inr => exact he ▸ h.again

theorem Merged.mergeAll (h : Merged offers ts) :
    Merged (offers ++ offers') (mergeAll offers' ts) := by
  induction offers' generalizing offers ts
  case nil => simpa [Candidates.mergeAll] using h
  case cons offer offers' hi => simpa [Candidates.mergeAll] using hi h.snoc

-- Where all offers of a token are the same, they agree on that.
theorem Agreed.eq_of_forall (h : Agreed offers t F) (hall : ∀ F', (t, F') ∈ offers → F' = L) :
    F = L := by
  have ⟨⟨F', hF'⟩, hag⟩ := h
  rcases hag with hF | ⟨_, F₁, F₂, h₁, h₂, hne⟩
  · exact (hF F' hF').symm.trans (hall F' hF')
  · exact absurd ((hall F₁ h₁).trans (hall F₂ h₂).symm) hne

-- A token that forces something was always offered with just that.
theorem Agreed.forall_of_ne_nil (h : Agreed offers t F) (hne : F ≠ []) :
    ∀ L, (t, L) ∈ offers → L = F :=
  h.right.resolve_right fun hnil => hne hnil.left

theorem merged_tokens : Merged (events.flatMap (·.offers s)) (ofEvents s events).tokens := by
  rw [ofEvents_tokens]
  exact Merged.nil.mergeAll

theorem mem_offers : (t, F) ∈ e.offers s ↔ ∃ stack symbols following,
    e = .offered stack symbols following ∧ (∀ r ∈ stack, s.isPreferred r = false) ∧ t ∈ symbols ∧
      t ≠ .epsilon ∧ s.isIgnored t = false ∧ F = s.visible following := by
  cases e
  case offered stack symbols following =>
    simp only [Event.offers, ← Settings.outermost?_eq_none]
    split
    case isTrue h =>
      simp only [List.mem_map, List.mem_filter, IntervalSet.mem_toList]
      constructor
      · rintro ⟨type, ⟨hm, hv⟩, he⟩
        cases he
        exact ⟨stack, symbols, following, rfl, h, hm, by simp_all⟩
      · rintro ⟨_, _, _, he, _, hm, hne, hi, rfl⟩
        cases he
        exact ⟨t, ⟨hm, by simp [hne, hi]⟩, rfl⟩
    case isFalse h =>
      refine ⟨by simp, ?_⟩
      rintro ⟨_, _, _, he, hn, _⟩
      cases he
      contradiction
  all_goals simp [Event.offers]

end Candidates
end Caret
