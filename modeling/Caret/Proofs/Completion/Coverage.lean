import Caret.Proofs.Completion.Bounds
import Caret.Proofs.Completion.Soundness

-- Whatever the tokens before a caret lead to is come across by a walk, if no rule is left-recursive
-- and no rule that is called can be empty. A rule that is walked once is not walked again for the
-- same token, but all that it offers has been offered by then: the rules that are still being
-- walked are around the one that is entered, and not one of them can be entered again without a
-- token.
namespace Caret

namespace Automaton

variable (a : Automaton)

-- The rule that starts here can neither be empty nor begin with a token of the type.
structure Excludes (start : StateId) (type : TokenType) : Prop where
  stops   : ∀ {rules s}, a.Begins start rules s → ¬a.Stops s
  accepts : ∀ {rules s t}, a.Begins start rules s → a.Leaves s t → ¬a.Accepts t type

-- The rule that starts here can begin with a wildcard.
def BeginsWild (start : StateId) : Prop :=
  ∃ rules s t, a.Begins start rules s ∧ a.Leaves s t ∧ t.label = .wildcard

-- A token is consumed before a rule calls itself again, and before a rule that is called ends.
structure Progressive : Prop where
  calls : ¬a.LeftRecursive
  ends  : ∀ r, a.Called r → ¬a.Nullable r

-- The first invocation can be in progress when the second one begins.
def Encloses (k k' : RuleIndex × Nat) : Prop :=
  k.snd < k'.snd ∨ k.snd = k'.snd ∧ Relation.TransGen a.LeftCalls k.fst k'.fst

variable {a} {s : StateId} {t : Transition} {type : TokenType} {k k' k'' : RuleIndex × Nat}

theorem Accepts.matches (h : a.Accepts t type)
    (hr : (TokenType.firstUser ≤ type ∧ type ≤ a.maxType) ∨ t.label ≠ .wildcard) :
    a.Matches t type := by
  rcases h with h | ⟨symbols, hs, hm⟩
  · have hr := hr.resolve_right (not_not_intro h)
    exact ⟨a.userTypes, by simp [symbols?, h], IntervalSet.mem_ofRange.mpr hr⟩
  · refine ⟨symbols, ?_, hm⟩
    unfold symbols?
    split
    case h_1 h => simp [h, Label.matchSet?] at hs
    case h_2 => exact hs

theorem Encloses.trans (h : a.Encloses k k') (h' : a.Encloses k' k'') : a.Encloses k k'' := by
  rcases h with h | ⟨he, h⟩ <;> rcases h' with h' | ⟨he', h'⟩
  · exact .inl (Nat.lt_trans h h')
  · exact .inl (he' ▸ h)
  · exact .inl (he ▸ h')
  · exact .inr ⟨he.trans he', h.trans h'⟩

theorem Encloses.irrefl (hl : ¬a.LeftRecursive) : ¬a.Encloses k k := by
  rintro (h | ⟨_, h⟩)
  · exact Nat.lt_irrefl _ h
  · exact hl ⟨k.fst, h⟩

end Automaton

namespace Reading

variable (x : Reading)

-- A wildcard does not consume a token before the caret that it would not stand for at the caret.
def Ordinary : Prop :=
  (∀ i type, i < x.caret → x.tokens[i]? = some type →
      TokenType.firstUser ≤ type ∧ type ≤ x.automaton.maxType) ∨
    ¬x.automaton.HasWildcard

-- All that can be consumed at the caret inside the invocation has been offered.
def Covered (events : List Event) (start : StateId) (index : Nat) : Prop :=
  ∀ rules s t symbols, x.Reaches (· < x.caret) start index rules s → x.automaton.Leaves s t →
    x.automaton.symbols? t = some symbols → symbols.isEmpty = false →
    ∃ stack, .offered stack symbols (x.automaton.forcedAfter t) ∈ events

-- What is remembered is complete, except for the invocations in progress.
def Settled (events : List Event) (opened : List (RuleIndex × Nat)) (g : Progress) : Prop :=
  ∀ r i ends start, g.ends? r i = some ends → (r, i) ∉ opened →
    x.automaton.ruleStart? r = some start →
    x.Covered events start i ∧ ∀ j, x.Ends (· < x.caret) start i j → j ∈ ends

-- Wherever the transition leads to is among the places, or has been offered.
structure Followed (events : List Event) (entry index : Nat) (t : Transition)
    (places : Place → Prop) : Prop where
  moves  : ∀ j, x.Moves entry t index j → places ⟨t.target, j⟩
  calls  : ∀ r follow, t.label = .rule r follow → x.Covered events t.target index ∧
    (index < x.caret → ∀ j, x.Ends (· < x.caret) t.target index j → places ⟨follow, j⟩)
  offers : ∀ symbols, x.caret ≤ index → x.automaton.symbols? t = some symbols →
    symbols.isEmpty = false → ∃ stack, .offered stack symbols (x.automaton.forcedAfter t) ∈ events

-- The place has been visited or will be, unless its state does not exist.
def Seen (visited pending : List Place) (p : Place) : Prop :=
  p ∈ visited ∨ p ∈ pending ∨ x.automaton.state? p.state = none

-- The places visited in an invocation are worked off, up to those that are pending.
structure Explored (events : List Event) (root : StateId) (entry : Nat)
    (visited pending : List Place) (ends : List Nat) : Prop where
  root     : x.Seen visited pending ⟨root, entry⟩
  followed : ∀ p t, p ∈ visited → x.automaton.Leaves p.state t →
    x.Followed events entry p.index t (x.Seen visited pending)
  stops    : ∀ p ∈ visited, x.automaton.Stops p.state → p.index ∈ ends

variable {x} {through : Nat → Prop} {entry index i : Nat} {p p' : Place}
  {root start s target follow : StateId} {r r' : RuleIndex} {rules : List RuleIndex}
  {t : Transition} {type : TokenType} {events : List Event} {places places' : Place → Prop}
  {visited pending rest : List Place} {ends : List Nat} {state : State}

section Caret

-- At the caret neither a token is consumed nor a rule passed, which leaves the free transitions.
theorem Path.begins (h : x.Path (· < x.caret) entry p p') (hp : x.caret ≤ p.index)
    (hb : x.automaton.Begins root rules p.state) :
    x.caret ≤ p'.index ∧ x.automaton.Begins root rules p'.state := by
  induction h
  case refl => exact ⟨hp, hb⟩
  case move hl hm hi =>
    have ⟨hle, hb⟩ := hi hp hb
    cases hm
    case free hf    => exact ⟨hle, hb.free hl (.inl hf)⟩
    case test id hf _ => exact ⟨hle, hb.free hl (.inr ⟨id, hf⟩)⟩
    case consume hlt _ _ => exact absurd hlt (Nat.not_lt.mpr hle)
  case call hl ht _ _ hi _ =>
    have ⟨hle, _⟩ := hi hp hb
    exact absurd ht (Nat.not_lt.mpr hle)

theorem Nested.begins (h : x.Nested (· < x.caret) root index rules start entry)
    (hi : x.caret ≤ index) : x.automaton.Begins root rules start := by
  induction h
  case root => exact .start
  case call hn hp hl hi' =>
    have hle := Nat.le_trans hi hn.index_le
    exact (hp.begins hle hi').right.call hl

theorem Reaches.begins (h : x.Reaches (· < x.caret) root index rules s) (hi : x.caret ≤ index) :
    x.automaton.Begins root rules s := by
  have ⟨start, entry, hn, hp⟩ := h
  have hle : x.caret ≤ entry := Nat.le_trans hi hn.index_le
  exact (hp.begins hle (hn.begins hi)).right

end Caret

section Excluded

variable (hx : x.automaton.Excludes root type) (ht : x.tokens[i]? = some type)

include hx ht

theorem Path.excluded (h : x.Path through entry p p') (hp : p.index = i)
    (hb : ∃ rules, x.automaton.Begins root rules p.state) :
    p'.index = i ∧ ∃ rules, x.automaton.Begins root rules p'.state := by
  induction h
  case refl => exact ⟨hp, hb⟩
  case move hl hm hi =>
    have ⟨hi, rules, hb⟩ := hi hp hb
    cases hm
    case free hf      => exact ⟨hi, rules, hb.free hl (.inl hf)⟩
    case test id hf _ => exact ⟨hi, rules, hb.free hl (.inr ⟨id, hf⟩)⟩
    case consume ht' ha =>
      cases hi
      cases ht.symm.trans ht'
      exact absurd ha (hx.accepts hb hl)
  case call hl _ _ hs hi hc =>
    have ⟨hi, rules, hb⟩ := hi hp hb
    have ⟨_, _, hb⟩ := hc hi ⟨_, hb.call hl⟩
    exact absurd hs (hx.stops hb)

theorem Nested.excluded (h : x.Nested through root i rules start entry) :
    entry = i ∧ ∃ rules, x.automaton.Begins root rules start := by
  induction h
  case root => exact ⟨rfl, [], .start⟩
  case call hp hl hi =>
    have ⟨he, hb⟩ := hi
    have ⟨hi, _, hb⟩ := hp.excluded hx ht he hb
    exact ⟨hi, _, hb.call hl⟩

theorem not_ends_of_excluded (j : Nat) : ¬x.Ends through root i j := by
  intro ⟨f, hp, hs⟩
  have ⟨_, _, hb⟩ := hp.excluded hx ht rfl ⟨[], .start⟩
  exact hx.stops hb hs

theorem not_reaches_of_excluded (hi : i < x.caret) : ¬x.Reaches through root i rules s := by
  intro ⟨start, entry, hn, hp⟩
  have ⟨he, hb⟩ := hn.excluded hx ht
  have ⟨hc, _⟩ := hp.excluded hx ht he hb
  exact Nat.ne_of_gt hi hc

end Excluded

theorem encloses_of_path (hr : x.automaton.ruleStart? r = some root)
    (hp : x.Path through entry ⟨root, entry⟩ ⟨s, index⟩)
    (hl : x.automaton.Leaves s ⟨target, .rule r' follow⟩) :
    x.automaton.Encloses (r, entry) (r', index) := by
  rcases Nat.lt_or_eq_of_le hp.index_le with hlt | he
  · exact .inl hlt
  · exact .inr ⟨he, .single ⟨root, s, target, follow, hr, hp.free (Nat.le_of_eq he.symm), hl⟩⟩

section Memo

variable {g : Progress} {opened : List (RuleIndex × Nat)}

-- A rule that is being walked is remembered without an end.
theorem Settled.enter (h : x.Settled events opened g) :
    x.Settled events ((r, i) :: opened) ((g.push r).remember r i []) := by
  intro r' i' ends start hrec hn hs
  have ⟨hne, hn⟩ := not_or.mp (List.mem_cons.not.mp hn)
  rw [Progress.ends?_remember, if_neg hne] at hrec
  exact h r' i' ends start hrec hn hs

theorem Settled.leave (h : x.Settled events ((r, i) :: opened) g)
    (hr : x.automaton.ruleStart? r = some start) (hc : x.Covered events start i)
    (he : ∀ j, x.Ends (· < x.caret) start i j → j ∈ ends) :
    x.Settled events opened (g.remember r i ends).pop := by
  intro r' i' ends' start' hrec hn hs
  change (g.remember r i ends).ends? r' i' = some ends' at hrec
  rw [Progress.ends?_remember] at hrec
  split at hrec
  case isTrue heq =>
    cases heq
    cases hrec
    cases hr.symm.trans hs
    exact ⟨hc, he⟩
  case isFalse hne =>
    have hn' : (r', i') ∉ (r, i) :: opened := List.mem_cons.not.mpr (not_or.mpr ⟨hne, hn⟩)
    exact h r' i' ends' start' hrec hn' hs

end Memo

theorem Followed.mono (h : x.Followed events entry index t places)
    (hp : ∀ p, places p → places' p) : x.Followed events entry index t places' where
  moves j hm        := hp _ (h.moves j hm)
  calls r follow he := (h.calls r follow he).imp_right fun h hi j hj => hp _ (h hi j hj)
  offers            := h.offers

theorem Seen.next {q : Query} (h : q.Seen visited pending p') (found : List Place)
    (hn : q.nextPlace? visited pending = some (p, state, rest)) :
    q.Seen (p :: visited) (found ++ rest) p' := by
  have ⟨_, _, skipped, he, hskip⟩ := Query.nextPlace?_eq_some hn
  subst he
  rcases h with h | h | h
  · exact .inl (List.mem_cons_of_mem _ h)
  · rcases List.mem_append.mp h with h | h
    · exact (hskip p' h).elim (fun h => .inl (List.mem_cons_of_mem _ h)) fun h => .inr (.inr h)
    · rcases List.mem_cons.mp h with rfl | h
      · exact .inl List.mem_cons_self
      · exact .inr (.inl (List.mem_append_right _ h))
  · exact .inr (.inr h)

namespace Explored

theorem initial : x.Explored events root entry [] [⟨root, entry⟩] [] := by
  constructor <;> simp [Seen]

variable {q : Query}

theorem stop (h : q.Explored events root entry visited pending ends)
    (hn : q.nextPlace? visited pending = some (p, state, rest)) (hstop : state.isStop) :
    q.Explored events root entry (p :: visited) rest (addEnd ends p.index) := by
  have ⟨_, hs, _⟩ := Query.nextPlace?_eq_some hn
  have hseen (u : Place) (hu : q.Seen visited pending u) : q.Seen (p :: visited) rest u :=
    hu.next [] hn
  constructor
  case root => exact hseen _ h.root
  case followed =>
    intro u t hu hl
    rcases List.mem_cons.mp hu with rfl | hu
    · exact absurd ⟨state, hs, hstop⟩ hl.not_stops
    · exact (h.followed u t hu hl).mono hseen
  case stops =>
    intro u hu hst
    rcases List.mem_cons.mp hu with rfl | hu
    · exact Query.mem_addEnd.mpr (.inr rfl)
    · exact Query.mem_addEnd.mpr (.inl (h.stops u hu hst))

theorem step {found : List Place} (h : q.Explored events root entry visited pending ends)
    (hn : q.nextPlace? visited pending = some (p, state, rest)) (hstop : state.isStop = false)
    (hf : ∀ t ∈ state.transitions, q.Followed events entry p.index t (· ∈ found)) :
    q.Explored events root entry (p :: visited) (found.reverse ++ rest) ends := by
  have ⟨_, hs, _⟩ := Query.nextPlace?_eq_some hn
  have hfound (u : Place) (hu : u ∈ found) : q.Seen (p :: visited) (found.reverse ++ rest) u :=
    .inr (.inl (List.mem_append_left _ (List.mem_reverse.mpr hu)))
  constructor
  case root => exact h.root.next _ hn
  case followed =>
    intro u t hu hl
    rcases List.mem_cons.mp hu with rfl | hu
    · have ⟨_, hs', _, hm⟩ := hl
      cases hs.symm.trans hs'
      exact (hf t hm).mono hfound
    · exact (h.followed u t hu hl).mono fun _ hu => hu.next _ hn
  case stops =>
    intro u hu hst
    rcases List.mem_cons.mp hu with rfl | hu
    · have ⟨_, hs', hstop'⟩ := hst
      cases hs.symm.trans hs'
      simp [hstop] at hstop'
    · exact h.stops u hu hst

-- When no place is left, every place that a path leads to has been visited.
theorem visits (h : q.Explored events root entry visited pending ends)
    (hn : q.nextPlace? visited pending = none) (hp : q.Path (· < q.caret) entry p p')
    (hseen : q.Seen visited pending p) : q.Seen visited pending p' := by
  have hvisited {u : Place} {t : Transition} (hu : q.Seen visited pending u)
      (hl : q.automaton.Leaves u.state t) : u ∈ visited := by
    have ⟨_, hs, _⟩ := hl
    have hu : u ∈ visited ∨ q.automaton.state? u.state = none :=
      hu.elim .inl (·.elim (Query.nextPlace?_eq_none hn u) .inr)
    exact hu.resolve_right (by simp [hs])
  induction hp
  case refl => exact hseen
  case move hl hm hi =>
    have hu := hvisited (hi h hseen) hl
    exact (h.followed _ _ hu hl).moves _ hm
  case call hl ht hc hs hi _ =>
    have hu := hvisited (hi h hseen) hl
    have ⟨_, hback⟩ := (h.followed _ _ hu hl).calls _ _ rfl
    exact hback ht _ ⟨_, hc, hs⟩

theorem complete (h : q.Explored events root entry visited pending ends)
    (hn : q.nextPlace? visited pending = none) :
    q.Covered events root entry ∧ ∀ j, q.Ends (· < q.caret) root entry j → j ∈ ends := by
  have hvisited {s i} {state : State} (hp : q.Path (· < q.caret) entry ⟨root, entry⟩ ⟨s, i⟩)
      (hs : q.automaton.state? s = some state) : ⟨s, i⟩ ∈ visited :=
    ((h.visits hn hp h.root).elim .inl (·.elim (Query.nextPlace?_eq_none hn _) .inr)).resolve_right
      (by simp [hs])
  constructor
  · intro rules s t symbols hr hl hsym hne
    have ⟨start, entry', hnest, hp⟩ := hr
    rcases hnest.front with ⟨rfl, rfl, rfl⟩ | ⟨s', i, target, r, follow, inner, rfl, hp', hl', hn'⟩
    · have ⟨_, hs, _⟩ := hl
      exact (h.followed _ t (hvisited hp hs) hl).offers symbols (Nat.le_refl _) hsym hne
    · have ⟨_, hs, _⟩ := hl'
      have ⟨hcov, _⟩ := (h.followed _ _ (hvisited hp' hs) hl').calls r follow rfl
      exact hcov inner s t symbols ⟨start, entry', hn', hp⟩ hl hsym hne
  · intro j ⟨f, hp, hstop⟩
    have ⟨_, hs, _⟩ := hstop
    exact h.stops _ (hvisited hp hs) hstop

end Explored

end Reading

namespace Query

-- The rule is not walked from the token on.
structure Skips (q : Query) (r : RuleIndex) (start : StateId) (i : Nat) (type : TokenType) :
    Prop where
  starts  : q.automaton.ruleStart? r = some start
  before  : i < q.caret
  token   : q.tokens[i]? = some type
  rejects : q.rejects (q.first start) type

-- No rule is skipped that can begin with a wildcard.
def SparesWildcards (q : Query) : Prop :=
  ∀ r start i type, q.Skips r start i type → ¬q.automaton.BeginsWild start

variable {q : Query} {call : StateId → Nat → Progress → Walked} {g : Progress}
  {root s start : StateId} {rule : RuleIndex} {entry index : Nat} {t : Transition}
  {ts : List Transition} {current : TokenType} {f : Frame} {pending visited : List Place}
  {ends : List Nat} {fresh : Nat} {events : List Event} {opened : List (RuleIndex × Nat)}

-- Entering a rule misses nothing, whatever invocations are in progress around it.
def Covers (q : Query) (events : List Event) (call : StateId → Nat → Progress → Walked) : Prop :=
  ∀ opened r start i g, q.automaton.ruleStart? r = some start → i ≤ q.caret → q.Recalls g →
    q.Settled events opened g → (∀ k ∈ opened, q.automaton.Encloses k (r, i)) →
    (call start i g).events ⊆ events →
    q.Settled events opened (call start i g).progress ∧ q.Covered events start i ∧
      (i < q.caret → ∀ j, q.Ends (· < q.caret) start i j → j ∈ (call start i g).ends)

section Frame

variable (hw : q.automaton.WellFormed) (hc : q.Sound call) (hcov : q.Covers events call)
  (hs : ∀ start i g, (call start i g).progress.stack = g.stack) (he : entry < q.caret)
  (hr : q.automaton.ruleStart? rule = some root)
  (ho : ∀ k ∈ opened, k = (rule, entry) ∨ q.automaton.Encloses k (rule, entry))

include hw hcov he hr ho

theorem take_covers (hp : q.Path (· < q.caret) entry ⟨root, entry⟩ ⟨s, index⟩)
    (hl : q.automaton.Leaves s t) (ht : q.tokens[index]? = some current) (hg : q.Recalls g)
    (hset : q.Settled events opened g) (hev : (q.take call current index t g).events ⊆ events) :
    q.Settled events opened (q.take call current index t g).progress ∧
      q.Followed events entry index t (· ∈ (q.take call current index t g).places) := by
  have hle : index ≤ q.caret := hp.le_caret (Nat.le_of_lt he)
  revert hev
  generalize heq : q.take call current index t g = w
  cases taken_of_eq heq
  case call r follow h =>
    intro hev
    obtain ⟨target, label⟩ := t
    subst h
    have henc := Reading.encloses_of_path hr hp hl
    have ho' : ∀ k ∈ opened, q.automaton.Encloses k (r, index) := fun k hk =>
      (ho k hk).elim (fun h => h ▸ henc) (·.trans henc)
    have ⟨hset', hcovered, hends⟩ :=
      hcov opened r target index g (hw.ruleStart?_eq hl) hle hg hset ho' hev
    refine ⟨hset', ?_, ?_, ?_⟩
    · exact fun j hm => absurd hm Reading.Moves.not_call
    · rintro _ _ h
      cases h
      exact ⟨hcovered, fun hi j hj => List.mem_map_of_mem (hends hi j hj)⟩
    · intro symbols _ hsym
      simp [Automaton.symbols?, Label.matchSet?] at hsym
  case move h =>
    intro hev
    refine ⟨hset, ?_, ?_, ?_⟩
    · exact fun j hm => mem_move_of_moves (hw.canonical hl) he ht hm
    · exact fun r follow hlabel => absurd hlabel (h r follow)
    · exact fun symbols hi hsym hne => ⟨g.stack, hev (offered_mem_move hi hsym hne)⟩

include hc

theorem takeAll_covers (hp : q.Path (· < q.caret) entry ⟨root, entry⟩ ⟨s, index⟩)
    (hl : ∀ t ∈ ts, q.automaton.Leaves s t) (ht : q.tokens[index]? = some current)
    (hg : q.Recalls g) (hset : q.Settled events opened g)
    (hev : (q.takeAll call current index ts g).events ⊆ events) :
    q.Settled events opened (q.takeAll call current index ts g).progress ∧
      ∀ t ∈ ts, q.Followed events entry index t
        (· ∈ (q.takeAll call current index ts g).places) := by
  induction ts generalizing g
  case nil => exact ⟨hset, by simp⟩
  case cons t ts hi =>
    have ⟨hl, hls⟩ := List.forall_mem_cons.mp hl
    have ⟨hev, hevs⟩ := List.append_subset.mp hev
    have ⟨hg', _⟩ := take_sound hw hc (Nat.le_of_lt he) hp hl ht hg
    have ⟨hset', hfirst⟩ := take_covers hw hcov he hr ho hp hl ht hg hset hev
    have ⟨hset'', hrest⟩ := hi hls hg' hset' hevs
    refine ⟨hset'', List.forall_mem_cons.mpr ⟨?_, fun t hm => ?_⟩⟩
    · exact hfirst.mono fun _ => List.mem_append_left _
    · exact (hrest t hm).mono fun _ => List.mem_append_right _

variable (hcut : .cutShort ∉ events) (hout : ∀ i, .outside i ∉ events)

include hs hcut hout

-- The places are explored up to those that are pending, which in the end are none.
theorem walkPlaces_covers (hpending : ∀ p ∈ pending, q.Path (· < q.caret) entry ⟨root, entry⟩ p)
    (hg : q.Recalls g) (hset : q.Settled events opened g)
    (hx : q.Explored events root entry visited pending ends)
    (hev : (q.walkPlaces call f fresh pending visited ends g).events ⊆ events) :
    q.Settled events opened (q.walkPlaces call f fresh pending visited ends g).progress ∧
      q.Covered events root entry ∧ ∀ j, q.Ends (· < q.caret) root entry j →
        j ∈ (q.walkPlaces call f fresh pending visited ends g).ends := by
  induction fresh generalizing pending visited ends g
  all_goals
    revert hev
    generalize heq : q.walkPlaces call f _ pending visited ends g = w
    cases visiting_of_eq heq <;> intro hev
  case zero.done hn => exact ⟨hset, hx.complete hn⟩
  case zero.cut => exact absurd (hev List.mem_cons_self) hcut
  case succ.done hn => exact ⟨hset, hx.complete hn⟩
  case succ.outside => exact absurd (hev List.mem_cons_self) (hout _)
  case succ.stop fresh hi p s rest current after hn _ hstop ha =>
    have ⟨_, _, hrest⟩ := mem_of_nextPlace? hn
    have ⟨_, hev⟩ := List.cons_subset.mp hev
    subst ha
    exact hi (fun p hm => hpending p (hrest p hm)) hg hset (hx.stop hn hstop) hev
  case succ.step fresh hi p s rest current step after hn ht hstop hst ha =>
    have ⟨hs', hm, hrest⟩ := mem_of_nextPlace? hn
    have hp := hpending p hm
    have hl : ∀ t ∈ s.transitions, q.automaton.Leaves p.state t := fun t hm => ⟨s, hs', hstop, hm⟩
    have ⟨_, hevs⟩ := List.cons_subset.mp hev
    have ⟨hstep, hafter⟩ := List.append_subset.mp hevs
    subst hst ha
    have ⟨hg', hplaces, _⟩ := takeAll_sound hw hc hs (Nat.le_of_lt he) hp hl ht hg
    have ⟨hset', hfollowed⟩ := takeAll_covers hw hc hcov he hr ho hp hl ht hg hset hstep
    refine hi (List.forall_mem_append.mpr ⟨?_, ?_⟩) hg' hset' (hx.step hn hstop hfollowed) hafter
    · exact fun p hm => hplaces p (List.mem_reverse.mp hm)
    · exact fun p hm => hpending p (hrest p hm)

theorem walkRule_covers (hf : f.entry = entry) (hg : q.Recalls g)
    (hset : q.Settled events opened g) (hev : (q.walkRule call f root g).events ⊆ events) :
    q.Settled events opened (q.walkRule call f root g).progress ∧ q.Covered events root entry ∧
      ∀ j, q.Ends (· < q.caret) root entry j → j ∈ (q.walkRule call f root g).ends := by
  subst hf
  exact walkPlaces_covers hw hc hcov hs he hr ho hcut hout
    (List.forall_mem_singleton.mpr .refl) hg hset .initial hev

end Frame

section Enter

variable (hw : q.automaton.WellFormed) (hf : ∀ start, q.first start = .compute q.automaton start)

include hw hf

theorem offersOf_covers {stack : List RuleIndex} (hi : q.caret ≤ index)
    (hev : offersOf stack (q.first start) ⊆ events) : q.Covered events start index := by
  intro rules s t symbols hr hl hsym hne
  have ⟨set, hset, hs, hfol⟩ := FirstSets.exists_set_of_meets hw (hr.begins hi) hl hsym hne
  refine ⟨stack ++ set.path, hev (List.mem_cons_of_mem _ (List.mem_map.mpr ⟨set, ?_, ?_⟩))⟩
  · rwa [hf]
  · rw [hs, hfol]

-- A rule that is skipped can do nothing, unless it can begin with a wildcard.
theorem excludes_of_rejects (hwild : ¬q.automaton.BeginsWild start)
    (hj : q.rejects (q.first start) current) : q.automaton.Excludes start current := by
  rw [hf] at hj
  simp only [rejects, Bool.and_eq_true, Bool.not_eq_true'] at hj
  constructor
  case stops =>
    intro rules s hb hs
    have := FirstSets.combined_contains_of_stops hw hb hs
    simp [hj] at this
  case accepts =>
    intro rules s t hb hl ha
    have hm := ha.matches (.inr fun h => hwild ⟨rules, s, t, hb, hl, h⟩)
    have := FirstSets.combined_contains_of_matches hw hb hl hm
    simp [hj] at this

theorem sparesWildcards_of_ordinary (ho : q.Ordinary) : q.SparesWildcards := by
  intro r start i type hs ⟨rules, s, t, hb, hl, hlabel⟩
  have hr := ho.resolve_right fun h => h ⟨s, t, hl, hlabel⟩
  have hm := Automaton.Accepts.matches (.inl hlabel) (.inl (hr i type hs.before hs.token))
  have := FirstSets.combined_contains_of_matches hw hb hl hm
  have hj := hs.rejects
  rw [hf] at hj
  simp [rejects, this] at hj

variable (hlr : ¬q.automaton.LeftRecursive) (hspare : q.SparesWildcards) (hcut : .cutShort ∉ events)
  (hout : ∀ i, .outside i ∉ events)

include hlr hspare hcut hout

theorem enterRule_covers (depth : Nat) : q.Covers events (q.enterRule depth) := by
  induction depth
  all_goals
    intro opened r start i g hr hi hg hset hopened
    generalize heq : q.enterRule _ start i g = w
    cases entering_of_eq heq <;> intro hev
  case zero.cut => exact absurd (hev List.mem_cons_self) hcut
  case succ.absent hn =>
    have ⟨_, hs, _⟩ := hw.start hr
    simp [hs] at hn
  case succ.known depth _ s ends hs hk =>
    cases hw.rule_eq hr hs
    -- An invocation that is still in progress would enclose itself.
    have hn : (s.rule, i) ∉ opened := fun hm => Automaton.Encloses.irrefl hlr (hopened _ hm)
    have ⟨hcov, hends⟩ := hset _ _ _ _ hk hn hr
    exact ⟨hset, hcov, fun _ => hends⟩
  case succ.atCaret hle =>
    have ⟨_, hev⟩ := List.cons_subset.mp hev
    exact ⟨hset, offersOf_covers hw hf hle hev, fun hlt => absurd hlt (Nat.not_lt.mpr hle)⟩
  case succ.outside => exact absurd (hev (by simp)) (hout i)
  case succ.rejected hlt ht hj =>
    -- Nothing is lost by a rule that is skipped.
    have hx := excludes_of_rejects hw hf (hspare _ _ _ _ ⟨hr, hlt, ht, hj⟩) hj
    refine ⟨hset, fun _ _ _ _ hreach => ?_, fun _ j hends => ?_⟩
    · exact absurd hreach (Reading.not_reaches_of_excluded hx ht hlt)
    · exact absurd hends (Reading.not_ends_of_excluded hx ht j)
  case succ.walked depth hd s current w hs hk hlt ht hj hwalk =>
    cases hw.rule_eq hr hs
    have hopened' : ∀ k ∈ (s.rule, i) :: opened,
        k = (s.rule, i) ∨ q.automaton.Encloses k (s.rule, i) :=
      List.forall_mem_cons.mpr ⟨.inl rfl, fun k hk => .inr (hopened k hk)⟩
    have hev' : w.events ⊆ events := fun e hm =>
      hev (List.mem_cons_of_mem _ (List.mem_cons_of_mem _ hm))
    have hg' : q.Recalls ((g.push s.rule).remember s.rule i []) := hg.remember fun _ _ => by simp
    subst hwalk
    have ⟨hset', hcov, hends⟩ := walkRule_covers hw (enterRule_sound hw hf depth) hd
      (fun _ _ _ => enterRule_stack) hlt hr hopened' hcut hout rfl hg' hset.enter hev'
    exact ⟨hset'.leave hr hcov hends, hcov, fun _ => hends⟩

theorem events_cover {startRule : RuleIndex} (hs : q.automaton.ruleStart? startRule = some start)
    (hev : q.events startRule ⊆ events) : q.Covered events start 0 := by
  simp only [Query.events, hs] at hev
  have hg : q.Recalls .empty := by simp [Reading.Recalls, Progress.empty]
  have hset : q.Settled events [] .empty := by
    simp [Reading.Settled, Progress.ends?, Progress.empty]
  exact (enterRule_covers hw hf hlr hspare hcut hout _ [] startRule start 0 .empty hs
    (Nat.zero_le _) hg hset (by simp) hev).right.left

end Enter

end Query

section Suggest

variable {cache : FirstSetCache} {a : Automaton} (hb : a.Built) (hc : cache.Faithful a)

include hb hc

-- Every transition that can be met makes its offer, unless it is behind a rule that is passed at
-- the caret.
theorem offer_of_meetsDirectly {s : Settings} {w : Window} {e : Evaluator} {startRule : RuleIndex}
    {rules : List RuleIndex} {t : TokenType} {tr : Transition} (hlr : ¬a.LeftRecursive)
    (hs : s.preferred = []) (hspare : (Query.ofWindow a w e cache).SparesWildcards)
    (ht : t ≠ .epsilon) (hi : s.isIgnored t = false)
    (hm : (Reading.ofWindow a w e).MeetsDirectly startRule rules tr) (htr : a.Matches tr t) :
    (t, s.visible (a.forcedAfter tr)) ∈
      ((Query.ofWindow a w e cache).events startRule).flatMap (·.offers s) := by
  have ⟨root, inner, state, hroot, _, hreach, hl⟩ := hm
  have ⟨symbols, hsym, hmem⟩ := htr
  have hbound := Query.events_bounded (q := .ofWindow a w e cache) w.caret_lt startRule
  have hcov := Query.events_cover (q := .ofWindow a w e cache) hb.wellFormed hc.lookup hlr hspare
    hbound.uncut hbound.inside hroot (List.Subset.refl _)
  have ⟨stack, hoffered⟩ := hcov inner state tr symbols hreach hl hsym
    (IntervalSet.isEmpty_eq_false_of_mem hmem)
  refine List.mem_flatMap.mpr ⟨_, hoffered, Candidates.mem_offers.mpr ?_⟩
  exact ⟨stack, symbols, _, rfl, by simp [Settings.isPreferred, hs], hmem, ht, hi, rfl⟩

variable (hp : a.Progressive) {s : Settings} (hs : s.preferred = []) {w : Window} {e : Evaluator}
  (ho : (Reading.ofWindow a w e).Ordinary) {startRule : RuleIndex} {rules : List RuleIndex}
  {t : TokenType} (ht : t ≠ .epsilon) (hi : s.isIgnored t = false)

include hp hs ho ht hi

-- Where no rule that is called can be empty, none is passed at the caret.
theorem offer_of_meets {tr : Transition} (hm : (Reading.ofWindow a w e).Meets startRule rules tr)
    (htr : a.Matches tr t) : (t, s.visible (a.forcedAfter tr)) ∈
      ((Query.ofWindow a w e cache).events startRule).flatMap (·.offers s) := by
  have hw := hb.wellFormed
  have ⟨root, inner, state, hroot, hrules, hreach, hl⟩ := hm
  have hreach := hreach.before hp.ends hw.ruleStart?_eq (Nat.zero_le _)
  exact offer_of_meetsDirectly hb hc hp.calls hs
    (Query.sparesWildcards_of_ordinary (q := .ofWindow a w e cache) hw hc.lookup ho) ht hi
    ⟨root, inner, state, hroot, hrules, hreach, hl⟩ htr

theorem suggest_complete (hv : (Reading.ofWindow a w e).Viable startRule rules t) :
    ∃ F, (t, F) ∈ (suggest cache a s w startRule e).fst.candidates.tokens := by
  have ⟨tr, hm, htr⟩ := hv
  rw [suggest_candidates]
  exact Candidates.merged_tokens.covers t _ (offer_of_meets hb hc hp hs ho ht hi hm htr)

end Suggest

section Brackets

namespace Automaton.WellFormed

variable {a : Automaton} (hw : a.WellFormed)
  (hf : ∀ state ∈ a.states, ∀ t ∈ state.transitions, ¬t.IsFree)

include hw

theorem not_stops_of_start {r : RuleIndex} {s : StateId} (hr : a.ruleStart? r = some s) :
    ¬a.Stops s := by
  intro ⟨_, hs', hstop⟩
  have ⟨_, hs, _, hk⟩ := hw.start hr
  cases hs.symm.trans hs'
  simp [State.isStop, hk] at hstop

include hf

-- Without free transitions no state can be left without a token.
theorem free_eq {s u : StateId} (h : a.Free s u) : u = s := by
  induction h
  case refl => rfl
  case step hl hfree _ =>
    have ⟨_, hs, _, hm⟩ := hl
    exact absurd hfree (hf _ (List.mem_of_getElem? hs) _ hm)
  case call hl _ hstop _ he =>
    exact absurd (he ▸ hstop) (hw.not_stops_of_start (hw.ruleStart?_eq hl))

theorem progressive (hc : ∀ state ∈ a.states, ∀ target r follow,
    ⟨target, .rule r follow⟩ ∈ state.transitions → state.rule < r) : a.Progressive := by
  have hlt {r r'} (h : a.LeftCalls r r') : r < r' := by
    have ⟨start, s, target, follow, hr, hfree, hl⟩ := h
    cases hw.free_eq hf hfree
    have ⟨_, hs, _, hm⟩ := hl
    have ⟨_, hs', hrule, _⟩ := hw.start hr
    cases hs.symm.trans hs'
    exact hrule ▸ hc _ (List.mem_of_getElem? hs) target r' follow hm
  constructor
  case calls =>
    intro ⟨r, h⟩
    have hlt' {r'} (h : Relation.TransGen a.LeftCalls r r') : r < r' := by
      induction h
      case single h => exact hlt h
      case tail h hi => exact Nat.lt_trans hi (hlt h)
    exact Nat.lt_irrefl r (hlt' h)
  case ends =>
    intro r _ ⟨start, f, hr, hfree, hstop⟩
    exact hw.not_stops_of_start hr (hw.free_eq hf hfree ▸ hstop)

end Automaton.WellFormed

theorem brackets_progressive : brackets.Progressive :=
  brackets_built.wellFormed.progressive (by simp [brackets, Transition.IsFree])
    (by simp +contextual [brackets])

theorem afterName_ordinary : (Reading.ofWindow brackets afterName .always).Ordinary := by
  refine .inl fun i type hi ht => ?_
  cases Nat.lt_one_iff.mp hi
  cases ht
  decide

theorem suggest_complete_brackets :
    ∃ F, (2, F) ∈ (suggest .empty brackets .empty afterName 0 .always).fst.candidates.tokens := by
  have hname : (Reading.ofWindow brackets afterName .always).Path anywhere 0 ⟨2, 0⟩ ⟨3, 1⟩ :=
    Reading.Path.refl.move (t := ⟨3, .atom 1⟩) ⟨_, rfl, rfl, List.mem_cons_self⟩
      (.consume (by decide) rfl (.inr ⟨_, rfl, IntervalSet.mem_singleton.mpr rfl⟩))
  have hpath : (Reading.ofWindow brackets afterName .always).Path anywhere 0 ⟨0, 0⟩ ⟨4, 1⟩ :=
    Reading.Path.refl.call ⟨_, rfl, rfl, List.mem_cons_self⟩ trivial hname ⟨_, rfl, rfl⟩
  have hv : (Reading.ofWindow brackets afterName .always).Viable 0 [0] 2 :=
    ⟨⟨5, .atom 2⟩, ⟨0, [], 4, rfl, rfl, ⟨0, 0, .root, hpath⟩, _, rfl, rfl, List.mem_cons_self⟩,
      .singleton 2, rfl, IntervalSet.mem_singleton.mpr rfl⟩
  exact suggest_complete brackets_built FirstSetCache.faithful_empty brackets_progressive rfl
    afterName_ordinary (by decide) rfl hv

end Brackets

end Caret
