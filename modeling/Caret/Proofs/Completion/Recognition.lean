import Caret.Proofs.Completion.Coverage
import Caret.Proofs.Completion.Entries
import Mathlib.Tactic.IntervalCases

-- A rule that is entered before the caret ends just where the tokens ahead can be matched. This
-- holds of every entry that a walk makes, also of one that is answered with what is remembered.
namespace Caret

namespace Reading

variable (x : Reading)

-- The tokens from `i` to `j`.
def Spans (i j : Nat) (types : List TokenType) : Prop :=
  j = i + types.length ∧ types <+: x.tokens.drop i

-- The rule that starts here can match the tokens from `i` to `j`. The caret plays no part.
def Recognises (start : StateId) (i j : Nat) : Prop :=
  ∃ steps f, x.automaton.Run (x.holds ·) start steps f ∧ x.automaton.Stops f ∧
    x.Spans i j (Automaton.consumed steps)

variable {x} {p p' : Place} {entry i j k : Nat} {start s s' : StateId} {type : TokenType}
  {types types' : List TokenType} {steps : List Automaton.Step}

theorem spans_nil : x.Spans i j [] ↔ j = i := by
  simp [Spans]

theorem spans_singleton : x.Spans i j [type] ↔ j = i + 1 ∧ x.tokens[i]? = some type := by
  rw [Spans, List.length_singleton, List.prefix_iff_eq_take, List.length_singleton]
  refine and_congr_right fun _ => ?_
  rw [List.take_one, List.head?_drop]
  cases x.tokens[i]? <;> simp [eq_comm]

theorem spans_append : x.Spans i k (types ++ types') ↔
    ∃ j, x.Spans i j types ∧ x.Spans j k types' := by
  simp only [Spans, List.length_append]
  constructor
  case mp =>
    rintro ⟨rfl, rest, hr⟩
    refine ⟨i + types.length, ⟨rfl, types' ++ rest, by simp [← hr]⟩, by omega, rest, ?_⟩
    rw [← List.drop_drop, ← hr]
    simp
  case mpr =>
    rintro ⟨_, ⟨rfl, rest, hr⟩, rfl, hp⟩
    rw [← List.drop_drop, ← hr, List.drop_left] at hp
    refine ⟨by omega, ?_⟩
    rw [← hr]
    exact (List.prefix_append_right_inj types).mpr hp

theorem Spans.index_le (h : x.Spans i j types) : i ≤ j :=
  h.left ▸ Nat.le_add_right ..

theorem Path.exists_run (h : x.Path (· < x.caret) entry p p') (he : entry < x.caret) :
    ∃ steps, x.automaton.Run (x.holds ·) p.state steps p'.state ∧
      x.Spans p.index p'.index (Automaton.consumed steps) := by
  induction h
  case refl => exact ⟨[], .nil, spans_nil.mpr rfl⟩
  case move t _ _ hl hm hi =>
    obtain ⟨steps, hr, hs⟩ := hi he
    cases hm
    case free hf =>
      exact ⟨_, hr.append (.free hl hf .nil), by simpa using hs⟩
    case test hf hh =>
      have hh := hh.resolve_right (Nat.not_le.mpr he)
      exact ⟨_, hr.append (.test hl hf hh .nil), by simpa using hs⟩
    case consume type _ ht ha =>
      refine ⟨_, hr.append (.token hl ha .nil), ?_⟩
      simpa using spans_append.mpr ⟨_, hs, spans_singleton.mpr ⟨rfl, ht⟩⟩
  case call hl ht _ hs hi hi' =>
    obtain ⟨steps, hr, hspan⟩ := hi he
    obtain ⟨inner, hr', hspan'⟩ := hi' ht
    refine ⟨_, hr.append (.call hl hr' hs .nil), ?_⟩
    simpa using spans_append.mpr ⟨_, hspan, hspan'⟩

-- A run never goes back, so that all of it lies before the caret if its end does.
theorem path_of_run (h : x.automaton.Run (x.holds ·) s steps s')
    (hs : x.Spans i j (Automaton.consumed steps)) (hc : j < x.caret) :
    x.Path (· < x.caret) entry ⟨s, i⟩ ⟨s', j⟩ := by
  induction h generalizing i j entry
  case nil =>
    cases spans_nil.mp hs
    exact .refl
  case free hl hf _ hi => exact (Path.refl.move hl (.free hf)).trans (hi hs hc)
  case test hl hf hh _ hi => exact (Path.refl.move hl (.test hf (.inl hh))).trans (hi hs hc)
  case token hl ha _ hi =>
    obtain ⟨k, htoken, hrest⟩ := spans_append.mp hs
    obtain ⟨rfl, ht⟩ := spans_singleton.mp htoken
    have hlt : i < x.caret :=
      Nat.lt_of_lt_of_le (Nat.lt_of_succ_le hrest.index_le) (Nat.le_of_lt hc)
    exact (Path.refl.move hl (.consume hlt ht ha)).trans (hi hrest hc)
  case call hl _ hstop _ hi hi' =>
    obtain ⟨k, hinner, hrest⟩ := spans_append.mp hs
    have hk : k < x.caret := Nat.lt_of_le_of_lt hrest.index_le hc
    have hlt : i < x.caret := Nat.lt_of_le_of_lt hinner.index_le hk
    have hstart {s} : x.Path (· < x.caret) entry ⟨s, i⟩ ⟨s, i⟩ := .refl
    exact (hstart.call hl hlt (hi hinner hk) hstop).trans (hi' hrest hc)

theorem ends_iff_recognises (hi : i < x.caret) (hj : j < x.caret) :
    x.Ends (· < x.caret) start i j ↔ x.Recognises start i j :=
  ⟨fun ⟨f, hp, hs⟩ =>
    have ⟨steps, hr, hspan⟩ := hp.exists_run hi
    ⟨steps, f, hr, hs, hspan⟩,
  fun ⟨_, f, hr, hs, hspan⟩ => ⟨f, path_of_run hr hspan hj, hs⟩⟩

end Reading

namespace Query

-- Where a walk is: about to enter a rule, or among the places of an invocation.
inductive Point
  | entry (depth : Nat) (start : StateId) (index : Nat) (g : Progress)
  | places (depth : Nat) (start : StateId) (f : Frame) (fresh : Nat) (pending visited : List Place)
    (ends : List Nat) (g : Progress)

-- What a walk from a start rule comes to. A call is made with what the transitions before it have
-- left.
inductive Hits (q : Query) (startRule : RuleIndex) : Point → Prop
  | root {start} : q.automaton.ruleStart? startRule = some start →
    Hits q startRule (.entry (q.automaton.states.length * q.caret + 1) start 0 .empty)
  | walk {depth start i g s current} : Hits q startRule (.entry (depth + 1) start i g) →
    q.automaton.state? start = some s → g.ends? s.rule i = none → i < q.caret →
    q.tokens[i]? = some current → q.rejects (q.first start) current = false →
    Hits q startRule (.places depth start ⟨s.rule, i⟩ (q.automaton.states.length * (q.caret + 1))
      [⟨start, i⟩] [] [] ((g.push s.rule).remember s.rule i []))
  | stop {depth start f fresh pending visited ends g p s rest current} :
    Hits q startRule (.places depth start f (fresh + 1) pending visited ends g) →
    q.nextPlace? visited pending = some (p, s, rest) → q.tokens[p.index]? = some current →
    s.isStop →
    Hits q startRule (.places depth start f fresh rest (p :: visited) (addEnd ends p.index) g)
  | step {depth start f fresh pending visited ends g p s rest current step} :
    Hits q startRule (.places depth start f (fresh + 1) pending visited ends g) →
    q.nextPlace? visited pending = some (p, s, rest) → q.tokens[p.index]? = some current →
    s.isStop = false →
    step = q.takeAll (q.enterRule depth) current p.index s.transitions g →
    Hits q startRule (.places depth start f fresh (step.places.reverse ++ rest) (p :: visited) ends
      step.progress)
  | call {depth start f fresh pending visited ends g p s rest current before target r follow
      after} :
    Hits q startRule (.places depth start f (fresh + 1) pending visited ends g) →
    q.nextPlace? visited pending = some (p, s, rest) → q.tokens[p.index]? = some current →
    s.isStop = false → s.transitions = before ++ ⟨target, .rule r follow⟩ :: after →
    Hits q startRule (.entry depth target p.index
      (q.takeAll (q.enterRule depth) current p.index before g).progress)

-- What is remembered when a rule is entered is complete, except for the invocations around it.
structure Enterable (q : Query) (events : List Event) (start : StateId) (i : Nat) (g : Progress)
    (r : RuleIndex) (opened : List (RuleIndex × Nat)) : Prop where
  starts   : q.automaton.ruleStart? r = some start
  le       : i ≤ q.caret
  recalls  : q.Recalls g
  settled  : q.Settled events opened g
  encloses : ∀ k ∈ opened, q.automaton.Encloses k (r, i)

-- The same while the places of an invocation are visited, each of which a path leads to.
structure Visitable (q : Query) (events : List Event) (start : StateId) (f : Frame)
    (pending : List Place) (g : Progress) (opened : List (RuleIndex × Nat)) : Prop where
  starts   : q.automaton.ruleStart? f.rule = some start
  lt       : f.entry < q.caret
  paths    : ∀ p ∈ pending, q.Path (· < q.caret) f.entry ⟨start, f.entry⟩ p
  recalls  : q.Recalls g
  settled  : q.Settled events opened g
  encloses : ∀ k ∈ opened, k = (f.rule, f.entry) ∨ q.automaton.Encloses k (f.rule, f.entry)

-- What is kept along a walk. Whatever happens from a point on is among the events.
def Kept (q : Query) (events : List Event) : Point → Prop
  | .entry depth start i g =>
    (∃ r opened, q.Enterable events start i g r opened) ∧
      (q.enterRule depth start i g).events ⊆ events
  | .places depth start f fresh pending visited ends g =>
    (∃ opened, q.Visitable events start f pending g opened) ∧
      (q.walkPlaces (q.enterRule depth) f fresh pending visited ends g).events ⊆ events

variable {q : Query} {current : TokenType} {index : Nat} {ts : List Transition} {g : Progress}
  {f : Frame} {pending visited : List Place} {ends : List Nat} {fresh depth : Nat}
  {start : StateId} {p : Place} {startRule : RuleIndex}

section Kept

variable {events : List Event} {opened : List (RuleIndex × Nat)} {point : Point}

theorem Enterable.visitable {r : RuleIndex} (h : q.Enterable events start index g r opened)
    (hi : index < q.caret) : q.Visitable events start ⟨r, index⟩ [⟨start, index⟩]
      ((g.push r).remember r index []) ((r, index) :: opened) where
  starts   := h.starts
  lt       := hi
  paths    := List.forall_mem_singleton.mpr .refl
  recalls  := h.recalls.remember fun _ _ => by simp
  settled  := h.settled.enter
  encloses := List.forall_mem_cons.mpr ⟨.inl rfl, fun k hk => .inr (h.encloses k hk)⟩

variable (hw : q.automaton.WellFormed) (hf : ∀ start, q.first start = .compute q.automaton start)
  (hlr : ¬q.automaton.LeftRecursive) (hspare : q.SparesWildcards) (hcut : .cutShort ∉ events)
  (hout : ∀ i, .outside i ∉ events)

include hw hf hlr hspare hcut hout

-- Transitions that are taken in a place that is visited keep what is remembered complete.
theorem Visitable.takeAll (h : q.Visitable events start f pending g opened) (hp : p ∈ pending)
    (hl : ∀ t ∈ ts, q.automaton.Leaves p.state t) (ht : q.tokens[p.index]? = some current)
    (hev : (q.takeAll (q.enterRule depth) current p.index ts g).events ⊆ events) :
    q.Visitable events start f (q.takeAll (q.enterRule depth) current p.index ts g).places
      (q.takeAll (q.enterRule depth) current p.index ts g).progress opened := by
  have hsound := enterRule_sound hw hf depth
  have ⟨hrec, hpaths, _⟩ := takeAll_sound hw hsound (fun _ _ _ => enterRule_stack)
    (Nat.le_of_lt h.lt) (h.paths p hp) hl ht h.recalls
  have ⟨hset, _⟩ := takeAll_covers hw hsound
    (enterRule_covers hw hf hlr hspare hcut hout depth) h.lt h.starts h.encloses (h.paths p hp) hl
    ht h.recalls h.settled hev
  exact ⟨h.starts, h.lt, hpaths, hrec, hset, h.encloses⟩

-- The rules around a call enclose it, since a path leads to the place where it is made.
theorem Hits.kept (hstart : q.events startRule ⊆ events) (h : q.Hits startRule point) :
    q.Kept events point := by
  induction h
  case root start hs =>
    refine ⟨⟨startRule, [], hs, Nat.zero_le _, ?_, ?_, by simp⟩, ?_⟩
    · simp [Reading.Recalls, Progress.empty]
    · simp [Reading.Settled, Progress.ends?, Progress.empty]
    · simpa only [Query.events, hs] using hstart
  case walk hs hk hlt ht hj hi =>
    obtain ⟨⟨r, opened, h⟩, hev⟩ := hi
    cases hw.rule_eq h.starts hs
    rw [enterRule_walked hs hk hlt ht hj rfl] at hev
    obtain ⟨_, hev⟩ := List.cons_subset.mp hev
    obtain ⟨_, hev⟩ := List.cons_subset.mp hev
    exact ⟨⟨_, h.visitable hlt⟩, hev⟩
  case stop hn ht hstop hi =>
    obtain ⟨⟨opened, h⟩, hev⟩ := hi
    rw [walkPlaces_stop hn ht hstop] at hev
    obtain ⟨_, _, hrest⟩ := mem_of_nextPlace? hn
    obtain ⟨_, hev⟩ := List.cons_subset.mp hev
    exact ⟨⟨opened, { h with paths := fun p hm => h.paths p (hrest p hm) }⟩, hev⟩
  case step s _ _ _ _ hn ht hstop he hi =>
    obtain ⟨⟨opened, h⟩, hev⟩ := hi
    rw [walkPlaces_step hn ht hstop he] at hev
    obtain ⟨hs, hm, hrest⟩ := mem_of_nextPlace? hn
    obtain ⟨_, hev⟩ := List.cons_subset.mp hev
    obtain ⟨hstep, hafter⟩ := List.append_subset.mp hev
    subst he
    have h' := h.takeAll hw hf hlr hspare hcut hout hm (fun t ht => ⟨s, hs, hstop, ht⟩) ht hstep
    refine ⟨⟨opened, { h' with paths := List.forall_mem_append.mpr ⟨?_, ?_⟩ }⟩, hafter⟩
    · exact fun p hm => h'.paths p (List.mem_reverse.mp hm)
    · exact fun p hm => h.paths p (hrest p hm)
  case call p s _ _ before target r follow after _ hn ht hstop he hi =>
    obtain ⟨⟨opened, h⟩, hev⟩ := hi
    rw [walkPlaces_step hn ht hstop rfl] at hev
    obtain ⟨hs, hm, hrest⟩ := mem_of_nextPlace? hn
    obtain ⟨_, hev⟩ := List.cons_subset.mp hev
    obtain ⟨hev, _⟩ := List.append_subset.mp hev
    rw [he, takeAll_append] at hev
    obtain ⟨hbefore, hev⟩ := List.append_subset.mp hev
    obtain ⟨hcall, _⟩ := List.append_subset.mp hev
    have hl : ∀ t ∈ s.transitions, q.automaton.Leaves p.state t := fun t ht => ⟨s, hs, hstop, ht⟩
    have hl' := hl ⟨target, .rule r follow⟩ (by simp [he])
    have h' := h.takeAll hw hf hlr hspare hcut hout hm (fun t ht => hl t (by simp [he, ht])) ht
      hbefore
    have henc := Reading.encloses_of_path h.starts (h.paths p hm) hl'
    refine ⟨⟨r, opened, hw.ruleStart?_eq hl', (h.paths p hm).le_caret (Nat.le_of_lt h.lt),
      h'.recalls, h'.settled, fun k hk => ?_⟩, hcall⟩
    exact (h.encloses k hk).elim (fun h => h ▸ henc) (·.trans henc)

theorem Hits.ends_iff (hstart : q.events startRule ⊆ events) {i : Nat}
    (h : q.Hits startRule (.entry depth start i g)) (hi : i < q.caret) (j : Nat) :
    j ∈ (q.enterRule depth start i g).ends ↔ q.Ends (· < q.caret) start i j := by
  have ⟨⟨r, opened, h⟩, hev⟩ := h.kept hw hf hlr hspare hcut hout hstart
  have ⟨_, hsound, _⟩ := enterRule_sound hw hf depth r start i g h.starts h.le h.recalls
  have ⟨_, _, hcov⟩ := enterRule_covers hw hf hlr hspare hcut hout depth opened r start i g
    h.starts h.le h.recalls h.settled h.encloses hev
  exact ⟨fun hj => (hsound j hj).right, hcov hi j⟩

end Kept

section Walked

variable {r : RuleIndex} {i k : Nat}

-- The walk comes to an entry of the rule at the token.
def Walks (q : Query) (startRule r : RuleIndex) (i : Nat) : Prop :=
  ∃ depth start s g, q.Hits startRule (.entry depth start i g) ∧
    q.automaton.state? start = some s ∧ s.rule = r

theorem Hits.walks_of_places
    (hc : ∀ {start i g}, q.Hits startRule (.entry depth start i g) →
      .walked r k ∈ (q.enterRule depth start i g).events → q.Walks startRule r k)
    (h : q.Hits startRule (.places depth start f fresh pending visited ends g))
    (he : .walked r k ∈
      (q.walkPlaces (q.enterRule depth) f fresh pending visited ends g).events) :
    q.Walks startRule r k := by
  induction fresh generalizing pending visited ends g
  all_goals
    revert he
    generalize heq : q.walkPlaces (q.enterRule depth) f _ pending visited ends g = w
    cases visiting_of_eq heq <;> intro he
  case succ.stop fresh hi p s rest current after hn ht hstop ha =>
    subst ha
    exact hi (h.stop hn ht hstop) (List.mem_of_ne_of_mem (by simp) he)
  case succ.step fresh hi p s rest current step after hn ht hstop hst ha =>
    have he := List.mem_of_ne_of_mem (by simp) he
    rcases List.mem_append.mp he with he | he
    · subst hst
      have ⟨before, t, after, hts, he⟩ := exists_of_mem_takeAll he
      revert he
      generalize heq : q.take _ current p.index t _ = w
      cases taken_of_eq heq <;> intro he
      case call h' =>
        obtain ⟨target, label⟩ := t
        subst h'
        exact hc (h.call hn ht hstop hts) he
      case move =>
        rcases mem_move_events he with ⟨_, he⟩ | ⟨_, _, he⟩ | ⟨_, _, _, he⟩ <;> contradiction
    · subst ha
      exact hi (h.step hn ht hstop hst) he
  all_goals simp at he

theorem Hits.walks (h : q.Hits startRule (.entry depth start i g))
    (he : .walked r k ∈ (q.enterRule depth start i g).events) : q.Walks startRule r k := by
  induction depth generalizing start i g
  all_goals
    revert he
    generalize heq : q.enterRule _ start i g = w
    cases entering_of_eq heq <;> intro he
  case succ.walked depth hd s current w hs hk hlt ht hj hwalk =>
    rcases List.mem_cons.mp (List.mem_of_ne_of_mem (by simp) he) with he | he
    · cases he
      exact ⟨_, start, s, g, h, hs, rfl⟩
    · subst hwalk
      exact (h.walk hs hk hlt ht hj).walks_of_places hd he
  all_goals simp [offersOf] at he

theorem walks_of_events (he : .walked r k ∈ q.events startRule) : q.Walks startRule r k := by
  unfold events at he
  split at he
  case h_1 => simp at he
  case h_2 start hs => exact (Hits.root hs).walks he

end Walked

end Query

namespace Automaton

variable {a : Automaton} {t : Transition} {type : TokenType}

theorem Matches.accepts (h : a.Matches t type) : a.Accepts t type := by
  have ⟨symbols, hs, hm⟩ := h
  unfold symbols? at hs
  split at hs
  case h_1 hw => exact .inl hw
  case h_2 => exact .inr ⟨symbols, hs, hm⟩

theorem accepts_iff_admits (hc : t.label.Canonical)
    (hr : (TokenType.firstUser ≤ type ∧ type ≤ a.maxType) ∨ t.label ≠ .wildcard) :
    a.Accepts t type ↔ t.label.Admits a.maxType type :=
  Iff.trans ⟨fun h => h.matches hr, Matches.accepts⟩ (matches_iff_admits hc)

end Automaton

section Window

variable {cache : FirstSetCache} {a : Automaton}

-- Without left recursion every rule that is entered before the caret ends, as far as the caret is
-- ahead, at just those token indices up to which it matches. The walk itself enters a rule as its
-- trace does, whatever it prefers and ignores. The entries that are spoken of include all those at
-- which a rule is walked.
theorem walk_recognises (hb : a.Built) (hc : cache.Faithful a) (hlr : ¬a.LeftRecursive) (w : Window)
    (e : Evaluator) (ho : (Reading.ofWindow a w e).Ordinary) (startRule : RuleIndex) :
    (∀ depth start i g,
      (Query.ofWindow a w e cache).Hits startRule (.entry depth start i g) → i < w.caret →
      (∃ r, a.ruleStart? r = some start) ∧
      (∀ j < w.caret, j ∈ ((Query.ofWindow a w e cache).enterRule depth start i g).ends ↔
        (Reading.ofWindow a w e).Recognises start i j) ∧
      ∀ s x, x.toProgress = g → x.cache.Faithful a →
        ∃ x', (Request.ofWindow a s w e).enterRule depth start i x =
          .ok (((Query.ofWindow a w e cache).enterRule depth start i g).ends, x')) ∧
    (∀ r i, .walked r i ∈ (Query.ofWindow a w e cache).events startRule →
      ∃ depth start g, (Query.ofWindow a w e cache).Hits startRule (.entry depth start i g) ∧
        a.ruleStart? r = some start) ∧
    ∀ t type, t.label.Canonical →
      ((TokenType.firstUser ≤ type ∧ type ≤ a.maxType) ∨ t.label ≠ .wildcard) →
      (a.Accepts t type ↔ t.label.Admits a.maxType type) := by
  let q := Query.ofWindow a w e cache
  have hw := hb.wellFormed
  have hbound : q.Bounded startRule := Query.events_bounded w.caret_lt startRule
  have hspare : q.SparesWildcards := Query.sparesWildcards_of_ordinary hw hc.lookup ho
  have hstarts {depth start i g} (h : q.Hits startRule (.entry depth start i g)) :
      ∃ r, a.ruleStart? r = some start := by
    have ⟨⟨r, _, h⟩, _⟩ := h.kept hw hc.lookup hlr hspare hbound.uncut hbound.inside
      (List.Subset.refl _)
    exact ⟨r, h.starts⟩
  refine ⟨fun depth start i g h hi => ⟨hstarts h, fun j hj => ?_, ?_⟩, fun r i he => ?_, ?_⟩
  · have hends := h.ends_iff hw hc.lookup hlr hspare hbound.uncut hbound.inside
      (List.Subset.refl _) hi j
    exact hends.trans (Reading.ends_iff_recognises (x := .ofWindow a w e) hi hj)
  · rintro s x rfl hx
    have ⟨_, hev⟩ := h.kept hw hc.lookup hlr hspare hbound.uncut hbound.inside (List.Subset.refl _)
    have hreads : (Request.ofWindow a s w e).Reads (cache.lookup a) x :=
      fun start => (hx.lookup start).trans (hc.lookup start).symm
    exact ⟨_, Request.enterRule_follows depth start i x hreads fun e hm => hbound.clear e (hev hm)⟩
  · have ⟨depth, start, s, g, h, hs, hr⟩ := Query.walks_of_events he
    have ⟨r', hr'⟩ := hstarts h
    exact ⟨depth, start, g, h, hr ▸ hw.rule_eq hr' hs ▸ hr'⟩
  · exact fun t type => Automaton.accepts_iff_admits

end Window

-- A name, then one of two brackets.
def oneBracket : Automaton where
  id         := ⟨0⟩
  states     := [
    ⟨0, .ruleStart, 0, [⟨2, .rule 1 4⟩, ⟨2, .rule 1 5⟩]⟩,
    ⟨1, .ruleStop, 0, []⟩,
    ⟨2, .ruleStart, 1, [⟨3, .atom 1⟩]⟩,
    ⟨3, .ruleStop, 1, []⟩,
    ⟨4, .basic, 0, [⟨1, .atom 2⟩]⟩,
    ⟨5, .basic, 0, [⟨1, .atom 3⟩]⟩
  ]
  rules      := [⟨"either", 0, 1⟩, ⟨"name", 2, 3⟩]
  vocabulary := .empty
  maxType    := 3

theorem oneBracket_built : oneBracket.Built := by
  refine ⟨[.addRule "either", .addRule "name", .addState 0 .basic, .addState 0 .basic,
    .addCall 0 1 4, .addCall 0 1 5, .addTransition 2 3 (.atom 1), .addTransition 4 1 (.atom 2),
    .addTransition 5 1 (.atom 3)], ⟨0⟩, ?_, rfl⟩
  simp [BuilderCall.Canonical, Label.Canonical]

theorem oneBracket_progressive : oneBracket.Progressive :=
  oneBracket_built.wellFormed.progressive (by simp [oneBracket, Transition.IsFree])
    (by simp +contextual [oneBracket, or_imp])

-- A name and a bracket, and the caret after them.
def afterBracket : Window where
  tokens   := [⟨1, "f", 0, 1, 0⟩, ⟨3, "]", 1, 1, 1⟩, .eof 2 1 2]
  nonempty := by simp

theorem afterBracket_ordinary : (Reading.ofWindow oneBracket afterBracket .always).Ordinary := by
  refine .inl fun i type hi ht => ?_
  have hi : i < 2 := hi
  interval_cases i <;> cases ht <;> decide

-- The name is called a second time for the other bracket, and its end is known by then.
theorem walk_recognises_oneBracket :
    ∃ depth g, (Query.ofWindow oneBracket afterBracket .always .empty).Hits 0 (.entry depth 2 0 g) ∧
      g.ends? 1 0 = some [1] ∧
      (Reading.ofWindow oneBracket afterBracket .always).Recognises 2 0 1 := by
  let q := Query.ofWindow oneBracket afterBracket .always .empty
  let g := (q.takeAll (q.enterRule 12) 1 0 [⟨2, .rule 1 4⟩]
    ((Progress.empty.push 0).remember 0 0 [])).progress
  have hroot : q.Hits 0 (.entry 13 0 0 .empty) := .root rfl
  have hplaces := hroot.walk rfl rfl (by decide) rfl (by decide +kernel)
  have hcall : q.Hits 0 (.entry 12 2 0 g) := .call hplaces rfl rfl rfl rfl
  have hends : g.ends? 1 0 = some [1] := by decide +kernel
  have ⟨hrec, _⟩ := walk_recognises oneBracket_built FirstSetCache.faithful_empty
    oneBracket_progressive.calls afterBracket .always afterBracket_ordinary 0
  have ⟨_, hiff, _⟩ := hrec 12 2 0 g hcall (by decide)
  refine ⟨12, g, hcall, hends, (hiff 1 (by decide)).mp ?_⟩
  rw [Query.enterRule_known rfl hends]
  exact List.mem_singleton_self 1

end Caret
