import Caret.Proofs.Completion.Bounds

-- Whatever a walk comes across is there: for every event that speaks of a place at the caret there
-- is a run of nested rules that leads to it, none of which was passed at the caret. End indices
-- that are remembered are those of an invocation with the same tokens ahead, and so count for every
-- caller.
namespace Caret

-- The rules that an event at the caret happens in.
def Event.stack? : Event → Option (List RuleIndex)
  | entered stack | passed stack | offered stack _ _ => some stack
  | _                                                => none

namespace Reading

variable (x : Reading)

-- The event happens in an invocation of the rule that starts in `root`, entered at `index`, or in
-- rules that are called in it. `stack` are the rules being called up to that invocation.
inductive Witnessed (root : StateId) (index : Nat) (stack : List RuleIndex) : Event → Prop
  | silent {e} : e.stack? = none → Witnessed root index stack e
  | entered {path start} : x.Nested (· < x.caret) root index path start x.caret →
    Witnessed root index stack (.entered (stack ++ path))
  | passed {path s t} : x.Reaches (· < x.caret) root index path s → x.automaton.Leaves s t →
    Witnessed root index stack (.passed (stack ++ path))
  | ends {path start} : x.Nested (· < x.caret) root index path start x.caret →
    Witnessed root index stack (.offered (stack ++ path) (.singleton TokenType.epsilon) [])
  | meets {path s t symbols} : x.Reaches (· < x.caret) root index path s →
    x.automaton.Leaves s t → x.automaton.symbols? t = some symbols →
    Witnessed root index stack (.offered (stack ++ path) symbols (x.automaton.forcedAfter t))

-- The end indices that are remembered are those of invocations.
def Recalls (g : Progress) : Prop :=
  ∀ r i ends start, ((r, i), ends) ∈ g.memo → x.automaton.ruleStart? r = some start →
    ∀ j ∈ ends, i < x.caret ∧ x.Ends (· < x.caret) start i j

variable {x} {root s target follow : StateId} {index i : Nat} {r : RuleIndex}
  {rules stack : List RuleIndex} {e : Event}

theorem Recalls.remember {g : Progress} {ends : List Nat} (hg : x.Recalls g)
    (he : ∀ start, x.automaton.ruleStart? r = some start →
      ∀ j ∈ ends, i < x.caret ∧ x.Ends (· < x.caret) start i j) :
    x.Recalls (g.remember r i ends) := by
  intro r' i' ends' start hm hr
  rcases List.mem_cons.mp hm with heq | hm
  · cases heq
    exact he start hr
  · exact hg r' i' ends' start hm hr

theorem Witnessed.call (hp : x.Path (· < x.caret) index ⟨root, index⟩ ⟨s, i⟩)
    (hl : x.automaton.Leaves s ⟨target, .rule r follow⟩)
    (h : x.Witnessed target i (stack ++ [r]) e) : x.Witnessed root index stack e := by
  cases h
  case silent h => exact .silent h
  case entered h =>
    rw [List.append_assoc]
    exact .entered (h.cons hp hl)
  case passed h hl' =>
    rw [List.append_assoc]
    exact .passed (h.cons hp hl) hl'
  case ends h =>
    rw [List.append_assoc]
    exact .ends (h.cons hp hl)
  case meets h hl' hs =>
    rw [List.append_assoc]
    exact .meets (h.cons hp hl) hl' hs

-- In a rule entered at the caret, all that can be reached without a token can be reached.
theorem reaches_of_begins {through : Nat → Prop} (h : x.automaton.Begins root rules s) :
    x.Reaches through root x.caret rules s := by
  induction h
  case start => exact ⟨root, x.caret, .root, .refl⟩
  case free hl hf hi =>
    have ⟨start, entry, hn, hp⟩ := hi
    have hle := hn.index_le
    refine ⟨start, entry, hn, hp.move hl ?_⟩
    rcases hf with hf | ⟨id, hf⟩
    · exact .free hf
    · exact .test hf (.inr hle)
  case call hl hi =>
    have ⟨start, entry, hn, hp⟩ := hi
    exact ⟨_, x.caret, hn.call hp hl, .refl⟩

-- All rules that are called on the way are entered at the caret.
theorem nested_of_begins {through : Nat → Prop} (h : x.automaton.Begins root rules s) :
    ∃ start, x.Nested through root x.caret rules start x.caret := by
  have ⟨start, entry, hn, hp⟩ : x.Reaches through root x.caret rules s := reaches_of_begins h
  cases Nat.le_antisymm hn.index_le hp.index_le
  exact ⟨start, hn⟩

end Reading

namespace Query

variable {q : Query} {call : StateId → Nat → Progress → Walked} {g : Progress} {e : Event}
  {root s start : StateId} {entry index : Nat} {t : Transition} {ts : List Transition}
  {current : TokenType} {f : Frame} {pending visited : List Place} {ends : List Nat} {fresh : Nat}
  {r : RuleIndex}

-- What entering a rule gives is there.
def Sound (q : Query) (call : StateId → Nat → Progress → Walked) : Prop :=
  ∀ r start i g, q.automaton.ruleStart? r = some start → i ≤ q.caret → q.Recalls g →
    q.Recalls (call start i g).progress ∧
      (∀ j ∈ (call start i g).ends, i < q.caret ∧ q.Ends (· < q.caret) start i j) ∧
      ∀ e ∈ (call start i g).events, q.Witnessed start i (g.stack ++ [r]) e

section Frame

variable (hw : q.automaton.WellFormed) (hc : q.Sound call)
  (hs : ∀ start i g, (call start i g).progress.stack = g.stack) (he : entry ≤ q.caret)

include hw hc he

theorem take_sound (hp : q.Path (· < q.caret) entry ⟨root, entry⟩ ⟨s, index⟩)
    (hl : q.automaton.Leaves s t) (ht : q.tokens[index]? = some current) (hg : q.Recalls g) :
    q.Recalls (q.take call current index t g).progress ∧
      (∀ p ∈ (q.take call current index t g).places,
        q.Path (· < q.caret) entry ⟨root, entry⟩ p) ∧
      ∀ e ∈ (q.take call current index t g).events, q.Witnessed root entry g.stack e := by
  have hle : index ≤ q.caret := hp.le_caret he
  generalize heq : q.take call current index t g = w
  cases taken_of_eq heq
  case call r follow h =>
    obtain ⟨target, label⟩ := t
    subst h
    have ⟨hg', hends, hev⟩ := hc r target index g (hw.ruleStart?_eq hl) hle hg
    refine ⟨hg', List.forall_mem_map.mpr fun j hj => ?_, fun e hm => (hev e hm).call hp hl⟩
    have ⟨hlt, _, hp', hstop⟩ := hends j hj
    exact hp.call hl hlt hp' hstop
  case move =>
    -- At the caret the path of the walk is one that reaches the caret.
    have hr (hi : q.caret ≤ index) : q.Reaches (· < q.caret) root entry [] s :=
      ⟨root, entry, .root, Nat.le_antisymm hle hi ▸ hp⟩
    refine ⟨hg, fun p hp' => ?_, fun e hm => ?_⟩
    · obtain ⟨j, hm, rfl⟩ := exists_moves_of_mem_move entry ht hp'
      exact hp.move hl hm
    · rcases mem_move_events hm with ⟨_, rfl⟩ | ⟨_, hi, rfl⟩ | ⟨symbols, hi, hsym, rfl⟩
      · exact .silent rfl
      · have h : q.Witnessed root entry g.stack (.passed (g.stack ++ [])) := .passed (hr hi) hl
        simpa using h
      · have h : q.Witnessed root entry g.stack
            (.offered (g.stack ++ []) symbols (q.automaton.forcedAfter t)) :=
          .meets (hr hi) hl hsym
        simpa using h

include hs

-- The stack is the same before and after each transition, so that all events stand in one frame.
theorem takeAll_sound (hp : q.Path (· < q.caret) entry ⟨root, entry⟩ ⟨s, index⟩)
    (hl : ∀ t ∈ ts, q.automaton.Leaves s t) (ht : q.tokens[index]? = some current)
    (hg : q.Recalls g) :
    q.Recalls (q.takeAll call current index ts g).progress ∧
      (∀ p ∈ (q.takeAll call current index ts g).places,
        q.Path (· < q.caret) entry ⟨root, entry⟩ p) ∧
      ∀ e ∈ (q.takeAll call current index ts g).events, q.Witnessed root entry g.stack e := by
  induction ts generalizing g
  case nil => exact ⟨hg, by simp [takeAll], by simp [takeAll]⟩
  case cons t ts hi =>
    obtain ⟨hl, hls⟩ := List.forall_mem_cons.mp hl
    obtain ⟨hg', hplaces, hev⟩ := take_sound hw hc he hp hl ht hg
    obtain ⟨hg'', hplaces', hev'⟩ := hi hls hg'
    rw [take_stack hs] at hev'
    exact ⟨hg'', List.forall_mem_append.mpr ⟨hplaces, hplaces'⟩,
      List.forall_mem_append.mpr ⟨hev, hev'⟩⟩

theorem walkPlaces_sound (hpending : ∀ p ∈ pending, q.Path (· < q.caret) entry ⟨root, entry⟩ p)
    (hends : ∀ j ∈ ends, q.Ends (· < q.caret) root entry j) (hg : q.Recalls g) :
    q.Recalls (q.walkPlaces call f fresh pending visited ends g).progress ∧
      (∀ j ∈ (q.walkPlaces call f fresh pending visited ends g).ends,
        q.Ends (· < q.caret) root entry j) ∧
      ∀ e ∈ (q.walkPlaces call f fresh pending visited ends g).events,
        q.Witnessed root entry g.stack e := by
  induction fresh generalizing pending visited ends g
  all_goals
    generalize heq : q.walkPlaces call f _ pending visited ends g = w
    cases visiting_of_eq heq
  case zero.done => exact ⟨hg, hends, by simp⟩
  case zero.cut => exact ⟨hg, hends, List.forall_mem_singleton.mpr (.silent rfl)⟩
  case succ.done => exact ⟨hg, hends, by simp⟩
  case succ.outside => exact ⟨hg, hends, List.forall_mem_singleton.mpr (.silent rfl)⟩
  case succ.stop fresh hi p s rest current after hn _ hstop ha =>
    have ⟨hs', hm, hrest⟩ := mem_of_nextPlace? hn
    have hends' : ∀ j ∈ addEnd ends p.index, q.Ends (· < q.caret) root entry j := by
      intro j hj
      rcases mem_addEnd.mp hj with hj | rfl
      · exact hends j hj
      · exact ⟨p.state, hpending p hm, s, hs', hstop⟩
    have ⟨hg', hends'', hev⟩ := ha ▸ hi (fun p hm => hpending p (hrest p hm)) hends' hg
    exact ⟨hg', hends'', List.forall_mem_cons.mpr ⟨.silent rfl, hev⟩⟩
  case succ.step fresh hi p s rest current step after hn ht hstop hst ha =>
    have ⟨hs', hm, hrest⟩ := mem_of_nextPlace? hn
    have hl : ∀ t ∈ s.transitions, q.automaton.Leaves p.state t := fun t hm => ⟨s, hs', hstop, hm⟩
    have ⟨hg', hplaces, hev⟩ := hst ▸ takeAll_sound hw hc hs he (hpending p hm) hl ht hg
    have hfound : ∀ p ∈ step.places.reverse ++ rest,
        q.Path (· < q.caret) entry ⟨root, entry⟩ p :=
      List.forall_mem_append.mpr ⟨fun p hm => hplaces p (List.mem_reverse.mp hm),
        fun p hm => hpending p (hrest p hm)⟩
    have hstack : step.progress.stack = g.stack := hst ▸ takeAll_stack hs
    have ⟨hg'', hends', hev'⟩ := ha ▸ hi hfound hends hg'
    rw [hstack] at hev'
    exact ⟨hg'', hends', List.forall_mem_cons.mpr
      ⟨.silent rfl, List.forall_mem_append.mpr ⟨hev, hev'⟩⟩⟩

theorem walkRule_sound (hf : f.entry = entry) (hg : q.Recalls g) :
    q.Recalls (q.walkRule call f root g).progress ∧
      (∀ j ∈ (q.walkRule call f root g).ends, q.Ends (· < q.caret) root entry j) ∧
      ∀ e ∈ (q.walkRule call f root g).events, q.Witnessed root entry g.stack e := by
  subst hf
  exact walkPlaces_sound hw hc hs he (List.forall_mem_singleton.mpr .refl) (by simp) hg

end Frame

section Enter

variable (hw : q.automaton.WellFormed) (hf : ∀ start, q.first start = .compute q.automaton start)

include hw hf

theorem offersOf_sound {stack : List RuleIndex} (hm : e ∈ offersOf stack (q.first start)) :
    q.Witnessed start q.caret stack e := by
  rw [hf] at hm
  rcases List.mem_cons.mp hm with rfl | hm
  · have h : q.Witnessed start q.caret stack (.entered (stack ++ [])) := .entered .root
    simpa using h
  · obtain ⟨set, hset, rfl⟩ := List.mem_map.mp hm
    cases FirstSets.founded_compute hw hset
    case ends hb _ _    => exact (Reading.nested_of_begins hb).elim fun _ => .ends
    case meets hb hl hs _ => exact .meets (Reading.reaches_of_begins hb) hl hs

theorem enterRule_sound (depth : Nat) : q.Sound (q.enterRule depth) := by
  induction depth
  all_goals
    intro r start i g hr hi hg
    generalize heq : q.enterRule _ start i g = w
    cases entering_of_eq heq
  case zero.cut => exact ⟨hg, by simp, List.forall_mem_singleton.mpr (.silent rfl)⟩
  case succ.absent => exact ⟨hg, by simp, by simp⟩
  case succ.known depth _ s ends hs hk =>
    cases hw.rule_eq hr hs
    exact ⟨hg, hg _ _ _ _ (Progress.mem_memo_of_ends? hk) hr, by simp⟩
  case succ.atCaret depth _ s hs hk hle =>
    cases hw.rule_eq hr hs
    cases Nat.le_antisymm hi hle
    exact ⟨hg, by simp, List.forall_mem_cons.mpr ⟨.silent rfl, fun e => offersOf_sound hw hf⟩⟩
  case succ.outside =>
    exact ⟨hg, by simp, List.forall_mem_cons.mpr
      ⟨.silent rfl, List.forall_mem_singleton.mpr (.silent rfl)⟩⟩
  case succ.rejected => exact ⟨hg, by simp, List.forall_mem_singleton.mpr (.silent rfl)⟩
  case succ.walked depth hd s current w hs hk hlt ht hj hwalk =>
    cases hw.rule_eq hr hs
    have hg' : q.Recalls ((g.push s.rule).remember s.rule i []) := hg.remember fun _ _ => by simp
    have ⟨hg'', hends, hev⟩ := hwalk ▸
      walkRule_sound hw hd (fun _ _ _ => enterRule_stack) hi rfl hg'
    refine ⟨hg''.remember fun start' hr' => ?_, fun j hj => ⟨hlt, hends j hj⟩, ?_⟩
    · cases hr.symm.trans hr'
      exact fun j hj => ⟨hlt, hends j hj⟩
    · exact List.forall_mem_cons.mpr ⟨.silent rfl, List.forall_mem_cons.mpr ⟨.silent rfl, hev⟩⟩

theorem events_sound {startRule : RuleIndex} (he : e ∈ q.events startRule) :
    ∃ start, q.automaton.ruleStart? startRule = some start ∧ q.Witnessed start 0 [startRule] e := by
  unfold events at he
  split at he
  case h_1 => simp at he
  case h_2 start hs =>
    have hg : q.Recalls .empty := by simp [Reading.Recalls, Progress.empty]
    refine ⟨start, hs, ?_⟩
    exact (enterRule_sound hw hf _ startRule start 0 .empty hs (Nat.zero_le _) hg).right.right e he

end Enter

end Query

namespace FirstSetCache

-- What is kept for an automaton was computed from it.
def Faithful (c : FirstSetCache) (a : Automaton) : Prop :=
  ∀ start sets, c.get? a.id start = some sets → sets = .compute a start

variable {c : FirstSetCache} {a : Automaton}

theorem faithful_empty : empty.Faithful a := by
  simp [Faithful, get?, empty]

theorem Faithful.lookup (h : c.Faithful a) (start : StateId) :
    c.lookup a start = .compute a start := by
  unfold FirstSetCache.lookup
  cases hg : c.get? a.id start
  case none      => rfl
  case some sets => exact h start sets hg

end FirstSetCache

section Suggest

variable {cache : FirstSetCache} {a : Automaton} (hb : a.Built) (hc : cache.Faithful a)
  (s : Settings) (w : Window) (startRule : RuleIndex) (e : Evaluator) {t : TokenType}
  {F : List TokenType}

include hb hc

-- Every offer is that of a transition that can be met.
theorem exists_meetsDirectly_of_offer
    (h : (t, F) ∈ ((Query.ofWindow a w e cache).events startRule).flatMap (·.offers s)) :
    t ≠ .epsilon ∧ s.isIgnored t = false ∧
      ∃ rules tr, (∀ r ∈ rules, s.isPreferred r = false) ∧
        (Reading.ofWindow a w e).MeetsDirectly startRule rules tr ∧ a.Matches tr t ∧
        F = s.visible (a.forcedAfter tr) := by
  have ⟨event, hevent, hoffer⟩ := List.mem_flatMap.mp h
  obtain ⟨stack, symbols, following, rfl, hstack, ht, hne, hi, hF⟩ :=
    Candidates.mem_offers.mp hoffer
  have ⟨start, hstart, hwit⟩ := Query.events_sound hb.wellFormed hc.lookup hevent
  refine ⟨hne, hi, stack, ?_⟩
  cases hwit
  case silent hn => simp [Event.stack?] at hn
  case ends => exact absurd (IntervalSet.mem_singleton.mp ht) hne
  case meets tr hreach hl hsym =>
    exact ⟨tr, hstack, ⟨start, _, _, hstart, rfl, hreach, hl⟩, ⟨symbols, hsym, ht⟩, hF⟩

theorem exists_meets_of_offer
    (h : (t, F) ∈ ((Query.ofWindow a w e cache).events startRule).flatMap (·.offers s)) :
    t ≠ .epsilon ∧ s.isIgnored t = false ∧
      ∃ rules tr, (∀ r ∈ rules, s.isPreferred r = false) ∧
        (Reading.ofWindow a w e).Meets startRule rules tr ∧ a.Matches tr t ∧
        F = s.visible (a.forcedAfter tr) := by
  have ⟨hne, hi, rules, tr, hrules, hm, htr, hF⟩ :=
    exists_meetsDirectly_of_offer hb hc s w startRule e h
  exact ⟨hne, hi, rules, tr, hrules, hm.meets, htr, hF⟩

theorem suggest_sound (h : (t, F) ∈ (suggest cache a s w startRule e).fst.candidates.tokens) :
    t ≠ .epsilon ∧ s.isIgnored t = false ∧
      ∃ rules, (∀ r ∈ rules, s.isPreferred r = false) ∧
        (Reading.ofWindow a w e).Viable startRule rules t := by
  rw [suggest_candidates] at h
  have ⟨⟨L, hL⟩, _⟩ := Candidates.merged_tokens.agrees t F h
  have ⟨hne, hi, rules, tr, hrules, hmeets, hm, _⟩ :=
    exists_meets_of_offer hb hc s w startRule e hL
  exact ⟨hne, hi, rules, hrules, tr, hmeets, hm⟩

end Suggest

-- A name, then a pair of brackets.
def brackets : Automaton where
  id         := ⟨0⟩
  states     := [
    ⟨0, .ruleStart, 0, [⟨2, .rule 1 4⟩]⟩,
    ⟨1, .ruleStop, 0, []⟩,
    ⟨2, .ruleStart, 1, [⟨3, .atom 1⟩]⟩,
    ⟨3, .ruleStop, 1, []⟩,
    ⟨4, .basic, 0, [⟨5, .atom 2⟩]⟩,
    ⟨5, .basic, 0, [⟨1, .atom 3⟩]⟩
  ]
  rules      := [⟨"call", 0, 1⟩, ⟨"name", 2, 3⟩]
  vocabulary := .empty
  maxType    := 3

theorem brackets_built : brackets.Built := by
  refine ⟨[.addRule "call", .addRule "name", .addState 0 .basic, .addState 0 .basic,
    .addCall 0 1 4, .addTransition 2 3 (.atom 1), .addTransition 4 5 (.atom 2),
    .addTransition 5 1 (.atom 3)], ⟨0⟩, ?_, rfl⟩
  simp [BuilderCall.Canonical, Label.Canonical]

-- A name, and the caret after it.
def afterName : Window where
  tokens   := [⟨1, "f", 0, 1, 0⟩, .eof 1 1 1]
  nonempty := by simp

theorem suggest_sound_brackets :
    (2, [3]) ∈ (suggest .empty brackets .empty afterName 0 .always).fst.candidates.tokens ∧
      ∃ rules, (Reading.ofWindow brackets afterName .always).Viable 0 rules 2 := by
  have h : (2, [3]) ∈
      (suggest .empty brackets .empty afterName 0 .always).fst.candidates.tokens := by
    decide +kernel
  have ⟨_, _, rules, _, hv⟩ := suggest_sound brackets_built FirstSetCache.faithful_empty
    .empty afterName 0 .always h
  exact ⟨h, rules, hv⟩

end Caret
