import Caret.Proofs.Completion.Coverage

-- Rules that are skipped. Before the caret a rule is not walked if its first sets hold neither the
-- current token nor the end of the rule. They tell everything but for a wildcard, which consumes
-- any token and is recorded with the types of the grammar only. A rule that is skipped and cannot
-- begin with a wildcard would be walked for nothing: it would neither end nor come across anything
-- at the caret. So the suggestions are the same as without skipping, unless a wildcard is skipped.
namespace Caret

namespace Automaton

variable {a : Automaton} {s u target follow : StateId} {t : Transition} {r : RuleIndex}
  {rules : List RuleIndex} {type : TokenType}

theorem Begins.after_free (hl : a.Leaves s t) (hf : t.IsFree) (hb : a.Begins t.target rules u) :
    a.Begins s rules u := by
  induction hb
  case start => exact Begins.start.free hl hf
  case free hl' hf' hi => exact hi.free hl' hf'
  case call hl' hi => exact hi.call hl'

theorem Begins.after_call (hl : a.Leaves s ⟨target, .rule r follow⟩)
    (hb : a.Begins target rules u) : a.Begins s (r :: rules) u := by
  induction hb
  case start => exact Begins.start.call hl
  case free hl' hf' hi => exact hi.free hl' hf'
  case call hl' hi => exact hi.call hl'

theorem Excludes.free (h : a.Excludes s type) (hl : a.Leaves s t) (hf : t.IsFree) :
    a.Excludes t.target type where
  stops hb   := h.stops (hb.after_free hl hf)
  accepts hb := h.accepts (hb.after_free hl hf)

theorem Excludes.call (h : a.Excludes s type) (hl : a.Leaves s ⟨target, .rule r follow⟩) :
    a.Excludes target type where
  stops hb   := h.stops (hb.after_call hl)
  accepts hb := h.accepts (hb.after_call hl)

theorem Excludes.not_beginsWild (h : a.Excludes s type) : ¬a.BeginsWild s :=
  fun ⟨_, _, _, hb, hl, hlabel⟩ => h.accepts hb hl (.inl hlabel)

end Automaton

-- The events that tell of something at the caret.
def telling (events : List Event) : List Event :=
  events.filter (·.stack?.isSome)

section Telling

variable {events events' : List Event} {e : Event} {s : Settings} {c : Candidates}

theorem telling_append : telling (events ++ events') = telling events ++ telling events' :=
  List.filter_append ..

theorem telling_eq_nil (h : ∀ e ∈ events, e.stack? = none) : telling events = [] :=
  List.filter_eq_nil_iff.mpr fun e he => by simp [h e he]

theorem telling_cons (h : e.stack? = none) : telling (e :: events) = telling events :=
  List.filter_cons_of_neg (by simp [h])

theorem Candidates.observe_silent (h : e.stack? = none) : c.observe s e = c := by
  cases e <;> simp_all [Event.stack?, observe]

theorem Candidates.ofEvents_telling : ofEvents s (telling events) = ofEvents s events := by
  unfold ofEvents telling
  generalize Candidates.empty = c
  induction events generalizing c
  case nil => rfl
  case cons e events hi =>
    cases he : e.stack?
    case none => rw [List.filter_cons_of_neg (by simp [he]), List.foldl_cons, observe_silent he, hi]
    case some => rw [List.filter_cons_of_pos (by simp [he]), List.foldl_cons, List.foldl_cons, hi]

theorem Candidates.ofEvents_append_silent (h : ∀ e ∈ events', e.stack? = none) :
    ofEvents s (events ++ events') = ofEvents s events := by
  rw [← ofEvents_telling, telling_append, telling_eq_nil h, List.append_nil, ofEvents_telling]

end Telling

namespace Reading

variable (x : Reading)

-- Walking the rule from the token on would come to nothing.
def Idle (r : RuleIndex) (i : Nat) : Prop :=
  ∃ start type, x.automaton.ruleStart? r = some start ∧ i < x.caret ∧
    x.tokens[i]? = some type ∧ x.automaton.Excludes start type

-- No end is known for an invocation that comes to nothing.
def Calm (g : Progress) : Prop :=
  ∀ r i ends, x.Idle r i → g.ends? r i = some ends → ends = []

-- The same is known but for such invocations.
def Agree (g g' : Progress) : Prop :=
  ∀ r i, ¬x.Idle r i → g.ends? r i = g'.ends? r i

-- Between two points of a walk nothing is come across.
structure Rest (g g' : Progress) (events : List Event) : Prop where
  silent : ∀ e ∈ events, e.stack? = none
  calm   : x.Calm g'
  agree  : x.Agree g g'

-- Two walks are at the same point.
structure Alike (g g' : Progress) : Prop where
  stack : g.stack = g'.stack
  agree : x.Agree g g'
  left  : x.Calm g
  right : x.Calm g'

-- Two steps gave the same, as far as it can be told.
structure Abreast (w w' : Stepped) : Prop where
  places : w.places = w'.places
  told   : telling w.events = telling w'.events
  alike  : x.Alike w.progress w'.progress

-- Two walks gave the same, as far as it can be told.
structure Twin (w w' : Walked) : Prop where
  ends  : w.ends = w'.ends
  told  : telling w.events = telling w'.events
  alike : x.Alike w.progress w'.progress

variable {x} {g g' g'' : Progress} {r : RuleIndex} {i : Nat} {ends : List Nat}
  {events events' : List Event} {e : Event}

theorem Recalls.calm (h : x.Recalls g) : x.Calm g := by
  intro r i ends ⟨start, type, hr, _, ht, hx⟩ hends
  have hall := h r i ends start (Progress.mem_memo_of_ends? hends) hr
  exact List.eq_nil_iff_forall_not_mem.mpr fun j hj =>
    not_ends_of_excluded hx ht j (hall j hj).right

theorem Calm.remember (h : x.Calm g) (he : x.Idle r i → ends = []) :
    x.Calm (g.remember r i ends) := by
  intro r' i' ends' hidle hends
  rw [Progress.ends?_remember] at hends
  split at hends
  case isTrue heq =>
    cases heq
    cases hends
    exact he hidle
  case isFalse => exact h r' i' ends' hidle hends

theorem Agree.remember (h : x.Agree g g') :
    x.Agree (g.remember r i ends) (g'.remember r i ends) := by
  intro r' i' hidle
  rw [Progress.ends?_remember, Progress.ends?_remember, h r' i' hidle]

theorem Agree.remember_idle (h : x.Agree g g') (hr : x.Idle r i) :
    x.Agree g (g'.remember r i ends) := by
  intro r' i' hidle
  rw [Progress.ends?_remember, if_neg, h r' i' hidle]
  intro he
  cases he
  exact hidle hr

theorem Rest.nil (hg : x.Calm g) : x.Rest g g [] :=
  ⟨by simp, hg, fun _ _ _ => rfl⟩

theorem Rest.cons (h : x.Rest g g' events) (he : e.stack? = none) : x.Rest g g' (e :: events) :=
  ⟨List.forall_mem_cons.mpr ⟨he, h.silent⟩, h.calm, h.agree⟩

theorem Rest.append (h : x.Rest g g' events) (h' : x.Rest g' g'' events') :
    x.Rest g g'' (events ++ events') where
  silent := List.forall_mem_append.mpr ⟨h.silent, h'.silent⟩
  calm   := h'.calm
  agree r i hidle := (h.agree r i hidle).trans (h'.agree r i hidle)

theorem Alike.rest (h : x.Alike g g') {h₁ h₂ : Progress} (hr : x.Rest g h₁ events)
    (hr' : x.Rest g' h₂ events') (hs : h₁.stack = g.stack) (hs' : h₂.stack = g'.stack) :
    x.Alike h₁ h₂ where
  stack := hs.trans (h.stack.trans hs'.symm)
  agree r i hidle :=
    (hr.agree r i hidle).symm.trans ((h.agree r i hidle).trans (hr'.agree r i hidle))
  left  := hr.calm
  right := hr'.calm

theorem Twin.cons {w w' : Walked} (h : x.Twin w w') (e : Event) (he : e.stack? = none) :
    x.Twin { w with events := e :: w.events } { w' with events := e :: w'.events } where
  ends  := h.ends
  told  := by rw [telling_cons he, telling_cons he, h.told]
  alike := h.alike

-- The invocation is left when its ends are known.
theorem Twin.remember {w w' : Walked} (h : x.Twin w w') (hidle : ¬x.Idle r i) :
    x.Twin { w with progress := (w.progress.remember r i w.ends).pop }
      { w' with progress := (w'.progress.remember r i w'.ends).pop } where
  ends  := h.ends
  told  := h.told
  alike := {
    stack := congrArg List.dropLast h.alike.stack
    agree := h.ends ▸ h.alike.agree.remember
    left  := h.alike.left.remember fun hi => absurd hi hidle
    right := h.alike.right.remember fun hi => absurd hi hidle
  }

theorem Twin.append {w w' : Walked} (h : x.Twin w w')
    (he : telling events = telling events') :
    x.Twin { w with events := events ++ w.events } { w' with events := events' ++ w'.events } where
  ends  := h.ends
  told  := by rw [telling_append, telling_append, he, h.told]
  alike := h.alike

end Reading

namespace Query

variable (q : Query)

-- The same walk, in which no rule is skipped.
def unpruned : Query :=
  { q with prune := false }

-- Entering a rule that comes to nothing does so.
def Rests (call : StateId → Nat → Progress → Walked) : Prop :=
  ∀ r start i g, q.automaton.ruleStart? r = some start → q.Idle r i → q.Calm g →
    (call start i g).ends = [] ∧ q.Rest g (call start i g).progress (call start i g).events

-- Two ways to enter rules give the same.
def Mirrors (call call' : StateId → Nat → Progress → Walked) : Prop :=
  ∀ r start i g g', q.automaton.ruleStart? r = some start → q.Alike g g' →
    q.Twin (call start i g) (call' start i g')

variable {q} {call call' : StateId → Nat → Progress → Walked} {g g' : Progress} {s : StateId}
  {index : Nat} {t : Transition} {ts : List Transition} {current : TokenType} {f : Frame}
  {pending visited : List Place} {ends : List Nat} {fresh : Nat}

section Unpruned

theorem nextPlace?_unpruned :
    q.unpruned.nextPlace? visited pending = q.nextPlace? visited pending :=
  rfl

theorem takeAll_unpruned :
    q.unpruned.takeAll call current index ts g = q.takeAll call current index ts g := by
  induction ts generalizing g
  case nil => rfl
  case cons t ts hi =>
    simp only [takeAll, hi]
    rfl

-- The walk of a rule skips rules only by the way it enters them.
theorem walkPlaces_unpruned : q.unpruned.walkPlaces call f fresh pending visited ends g =
    q.walkPlaces call f fresh pending visited ends g := by
  induction fresh generalizing pending visited ends g
  case zero => simp only [walkPlaces, nextPlace?_unpruned]
  case succ fresh hi =>
    simp only [walkPlaces, nextPlace?_unpruned, takeAll_unpruned, hi]
    rfl

theorem walkRule_unpruned {start : StateId} :
    q.unpruned.walkRule call f start g = q.walkRule call f start g :=
  walkPlaces_unpruned

end Unpruned

section Idle

variable (hw : q.automaton.WellFormed) (hc : q.Rests call) (hi : index < q.caret)
  (ht : q.tokens[index]? = some current)

include hw hc hi ht

theorem take_rests (hx : q.automaton.Excludes s current) (hl : q.automaton.Leaves s t)
    (hg : q.Calm g) :
    (∀ p ∈ (q.take call current index t g).places,
      p.index = index ∧ q.automaton.Excludes p.state current) ∧
      q.Rest g (q.take call current index t g).progress (q.take call current index t g).events := by
  generalize heq : q.take call current index t g = w
  cases taken_of_eq heq
  case call r follow h =>
    obtain ⟨target, label⟩ := t
    subst h
    have hr := hw.ruleStart?_eq hl
    have ⟨hends, hrest⟩ := hc r target index g hr ⟨target, current, hr, hi, ht, hx.call hl⟩ hg
    exact ⟨by simp [hends], hrest⟩
  case move =>
    refine ⟨fun p hp => ?_, fun e hm => ?_, hg, fun _ _ _ => rfl⟩
    · have ⟨j, hm, he⟩ := exists_moves_of_mem_move 0 ht hp
      subst he
      cases hm
      case free h      => exact ⟨rfl, hx.free hl (.inl h)⟩
      case test id h _ => exact ⟨rfl, hx.free hl (.inr ⟨id, h⟩)⟩
      case consume ht' ha =>
        cases ht.symm.trans ht'
        exact absurd ha (hx.accepts .start hl)
    · rcases mem_move_events hm with ⟨_, rfl⟩ | ⟨_, hle, _⟩ | ⟨_, hle, _⟩
      · rfl
      all_goals exact absurd hi (Nat.not_lt.mpr hle)

theorem takeAll_rests (hx : q.automaton.Excludes s current)
    (hl : ∀ t ∈ ts, q.automaton.Leaves s t) (hg : q.Calm g) :
    (∀ p ∈ (q.takeAll call current index ts g).places,
      p.index = index ∧ q.automaton.Excludes p.state current) ∧
      q.Rest g (q.takeAll call current index ts g).progress
        (q.takeAll call current index ts g).events := by
  induction ts generalizing g
  case nil => exact ⟨by simp [takeAll], .nil hg⟩
  case cons t ts hts =>
    obtain ⟨hl, hls⟩ := List.forall_mem_cons.mp hl
    obtain ⟨hp, hrest⟩ := take_rests hw hc hi ht hx hl hg
    obtain ⟨hp', hrest'⟩ := hts hls hrest.calm
    exact ⟨List.forall_mem_append.mpr ⟨hp, hp'⟩, hrest.append hrest'⟩

theorem walkPlaces_rests
    (hp : ∀ p ∈ pending, p.index = index ∧ q.automaton.Excludes p.state current) (hg : q.Calm g) :
    (q.walkPlaces call f fresh pending visited ends g).ends = ends ∧
      q.Rest g (q.walkPlaces call f fresh pending visited ends g).progress
        (q.walkPlaces call f fresh pending visited ends g).events := by
  induction fresh generalizing pending visited g
  all_goals
    generalize heq : q.walkPlaces call f _ pending visited ends g = w
    cases visiting_of_eq heq
  case zero.done => exact ⟨rfl, .nil hg⟩
  case zero.cut => exact ⟨rfl, (Reading.Rest.nil hg).cons rfl⟩
  case succ.done => exact ⟨rfl, .nil hg⟩
  case succ.outside => exact ⟨rfl, (Reading.Rest.nil hg).cons rfl⟩
  case succ.stop p s rest current' after hn _ hstop ha =>
    have ⟨hs, hm, _⟩ := mem_of_nextPlace? hn
    exact absurd ⟨s, hs, hstop⟩ ((hp p hm).right.stops .start)
  case succ.step fresh hfresh p s rest current' step after hn ht' hstop hst ha =>
    have ⟨hs, hm, hrest⟩ := mem_of_nextPlace? hn
    have ⟨he, hx⟩ := hp p hm
    cases (he ▸ ht).symm.trans ht'
    have hl : ∀ t ∈ s.transitions, q.automaton.Leaves p.state t := fun t hm => ⟨s, hs, hstop, hm⟩
    have ⟨hplaces, hstep⟩ := hst ▸ takeAll_rests hw hc (he ▸ hi) ht' hx hl hg
    have hfound : ∀ p ∈ step.places.reverse ++ rest,
        p.index = index ∧ q.automaton.Excludes p.state current :=
      List.forall_mem_append.mpr ⟨fun p hm => he ▸ hplaces p (List.mem_reverse.mp hm),
        fun p hm => hp p (hrest p hm)⟩
    have ⟨hends, hafter⟩ := ha ▸ hfresh hfound hstep.calm
    exact ⟨hends, (hstep.append hafter).cons rfl⟩

theorem walkRule_rests {start : StateId} (hx : q.automaton.Excludes start current)
    (hf : f.entry = index) (hg : q.Calm g) :
    (q.walkRule call f start g).ends = [] ∧
      q.Rest g (q.walkRule call f start g).progress (q.walkRule call f start g).events :=
  walkPlaces_rests hw hc hi ht (List.forall_mem_singleton.mpr ⟨hf, hx⟩) hg

end Idle

theorem enterRule_rests (hw : q.automaton.WellFormed) (depth : Nat) :
    q.Rests (q.enterRule depth) := by
  induction depth
  all_goals
    intro r start i g hr hidle hg
    generalize heq : q.enterRule _ start i g = w
    cases entering_of_eq heq
  case zero.cut => exact ⟨rfl, (Reading.Rest.nil hg).cons rfl⟩
  case succ.absent => exact ⟨rfl, .nil hg⟩
  case succ.known s ends hs hk =>
    cases hw.rule_eq hr hs
    exact ⟨hg _ _ _ hidle hk, .nil hg⟩
  case succ.atCaret hle =>
    have ⟨_, _, _, hlt, _⟩ := hidle
    exact absurd hlt (Nat.not_lt.mpr hle)
  case succ.outside => exact ⟨rfl, ((Reading.Rest.nil hg).cons rfl).cons rfl⟩
  case succ.rejected => exact ⟨rfl, (Reading.Rest.nil hg).cons rfl⟩
  case succ.walked depth hd s current w hs hk hlt ht hj hwalk =>
    cases hw.rule_eq hr hs
    have ⟨start', type, hr', _, ht', hx⟩ := hidle
    cases hr.symm.trans hr'
    cases ht.symm.trans ht'
    have hg' : q.Calm ((g.push s.rule).remember s.rule i []) :=
      Reading.Calm.remember hg fun _ => rfl
    have ⟨hends, hrest⟩ := hwalk ▸ walkRule_rests hw hd hlt ht hx rfl hg'
    refine ⟨hends, ?_, ?_, ?_⟩
    · exact List.forall_mem_cons.mpr ⟨rfl, List.forall_mem_cons.mpr ⟨rfl, hrest.silent⟩⟩
    · exact hrest.calm.remember fun _ => hends
    · -- The invocation itself is all that is known before and not after.
      have hpush : q.Agree g ((g.push s.rule).remember s.rule i []) :=
        Reading.Agree.remember_idle (fun _ _ _ => rfl) hidle
      exact fun r' i' hn => (hpush r' i' hn).trans (hrest.agree.remember_idle hidle r' i' hn)

section Mirror

variable (hw : q.automaton.WellFormed) (hc : q.Mirrors call call')

include hw hc

theorem take_mirrors (current : TokenType) (index : Nat) (hl : q.automaton.Leaves s t)
    (hg : q.Alike g g') :
    q.Abreast (q.take call current index t g) (q.take call' current index t g') := by
  obtain ⟨target, label⟩ := t
  cases label
  case rule r follow =>
    have h := hc r target index g g' (hw.ruleStart?_eq hl) hg
    refine ⟨?_, h.told, h.alike⟩
    simp [take, h.ends]
  all_goals exact ⟨by simp [take, hg.stack], by simp [take, hg.stack], hg⟩

theorem takeAll_mirrors (current : TokenType) (index : Nat)
    (hl : ∀ t ∈ ts, q.automaton.Leaves s t) (hg : q.Alike g g') :
    q.Abreast (q.takeAll call current index ts g) (q.takeAll call' current index ts g') := by
  induction ts generalizing g g'
  case nil => exact ⟨rfl, rfl, hg⟩
  case cons t ts hi =>
    have ⟨hl, hls⟩ := List.forall_mem_cons.mp hl
    have h := take_mirrors hw hc current index hl hg
    have h' := hi hls h.alike
    constructor
    case places => simp only [takeAll, h.places, h'.places]
    case told   => simp only [takeAll, telling_append, h.told, h'.told]
    case alike  => exact h'.alike

-- The two walks visit the same places in the same order.
theorem walkPlaces_mirrors (hg : q.Alike g g') :
    q.Twin (q.walkPlaces call f fresh pending visited ends g)
      (q.walkPlaces call' f fresh pending visited ends g') := by
  induction fresh generalizing pending visited ends g g'
  case zero =>
    unfold walkPlaces
    split
    case h_1 => exact ⟨rfl, rfl, hg⟩
    case h_2 => exact ⟨rfl, rfl, hg⟩
  case succ fresh hi =>
    unfold walkPlaces
    split
    case h_1 => exact ⟨rfl, rfl, hg⟩
    case h_2 p s rest hn =>
      split
      case h_1 => exact ⟨rfl, rfl, hg⟩
      case h_2 current ht =>
        dsimp only
        split
        case isTrue => exact (hi hg).cons _ rfl
        case isFalse hstop =>
          obtain ⟨hs, _⟩ := mem_of_nextPlace? hn
          have hl : ∀ t ∈ s.transitions, q.automaton.Leaves p.state t :=
            fun t hm => ⟨s, hs, by simpa using hstop, hm⟩
          have h := takeAll_mirrors hw hc current p.index hl hg
          rw [h.places]
          exact ((hi h.alike).append h.told).cons _ rfl

end Mirror

section Enter

variable (hw : q.automaton.WellFormed)
  (hskip : ∀ r start i type, q.Skips r start i type → q.automaton.Excludes start type)

include hw hskip

theorem enterRule_mirrors (depth : Nat) :
    q.Mirrors (q.enterRule depth) (q.unpruned.enterRule depth) := by
  induction depth
  case zero => exact fun _ _ _ _ _ _ hg => ⟨rfl, rfl, hg⟩
  case succ depth hd =>
    intro r start i g g' hr hg
    by_cases hidle : q.Idle r i
    case pos =>
      -- Both walks come to nothing, whether the rule is skipped or not.
      have ⟨hends, hrest⟩ := enterRule_rests hw (depth + 1) r start i g hr hidle hg.left
      have ⟨hends', hrest'⟩ := enterRule_rests (q := q.unpruned) hw (depth + 1) r start i g' hr
        hidle hg.right
      refine ⟨hends.trans hends'.symm, ?_, hg.rest hrest hrest' enterRule_stack enterRule_stack⟩
      rw [telling_eq_nil hrest.silent, telling_eq_nil hrest'.silent]
    case neg =>
      have hends := hg.agree r i hidle
      generalize heq : q.enterRule (depth + 1) start i g = w
      cases entering_of_eq heq
      case absent hn =>
        have ⟨_, hs, _⟩ := hw.start hr
        simp [hs] at hn
      case known s ends hs hk =>
        cases hw.rule_eq hr hs
        rw [enterRule_known (q := q.unpruned) hs (hends ▸ hk)]
        exact ⟨rfl, rfl, hg⟩
      case atCaret s hs hk hle =>
        cases hw.rule_eq hr hs
        rw [enterRule_atCaret (q := q.unpruned) hs (hends ▸ hk) hle, hg.stack]
        exact ⟨rfl, rfl, hg⟩
      case outside s hs hk hi ht =>
        cases hw.rule_eq hr hs
        rw [enterRule_outside (q := q.unpruned) hs (hends ▸ hk) hi ht]
        exact ⟨rfl, rfl, hg⟩
      case rejected s current hs hk hi ht hj =>
        exact absurd ⟨start, current, hr, hi, ht, hskip r start i current ⟨hr, hi, ht, hj⟩⟩ hidle
      case walked s current w hs hk hi ht hj hwalk =>
        cases hw.rule_eq hr hs
        subst hwalk
        rw [enterRule_walked (q := q.unpruned) hs (hends ▸ hk) hi ht rfl rfl, walkRule_unpruned]
        have hg' : q.Alike ((g.push s.rule).remember s.rule i [])
            ((g'.push s.rule).remember s.rule i []) :=
          ⟨congrArg (· ++ [s.rule]) hg.stack, Reading.Agree.remember hg.agree,
            Reading.Calm.remember hg.left fun _ => rfl, Reading.Calm.remember hg.right fun _ => rfl⟩
        have h : q.Twin (q.walkRule (q.enterRule depth) ⟨s.rule, i⟩ start _)
          (q.walkRule (q.unpruned.enterRule depth) ⟨s.rule, i⟩ start _) :=
          walkPlaces_mirrors hw hd hg'
        exact ((h.remember hidle).cons (.walked s.rule i) rfl).cons (.consulted start) rfl

theorem telling_events (startRule : RuleIndex) :
    telling (q.events startRule) = telling (q.unpruned.events startRule) := by
  have hcalm : q.Calm .empty := fun _ _ _ _ h => nomatch h
  cases hr : q.automaton.ruleStart? startRule
  case none => simp only [events, unpruned, hr]
  case some start =>
    simp only [events, show q.unpruned.automaton = q.automaton from rfl, hr]
    exact (enterRule_mirrors hw hskip _ startRule start 0 .empty .empty hr
      ⟨rfl, fun _ _ _ => rfl, hcalm, hcalm⟩).told

end Enter
end Query

section Suggest

variable {a : Automaton} {cache : FirstSetCache} (hb : a.Built) (hc : cache.Faithful a)

include hb hc

-- A rule is skipped rightly unless it can begin with a wildcard, and only then can a suggestion be
-- lost. For ordinary tokens no such rule is skipped.
theorem suggest_unpruned (w : Window) (e : Evaluator) :
    (∀ r start i type, (Query.ofWindow a w e cache).Skips r start i type →
      (a.Excludes start type ↔ ¬a.BeginsWild start) ∧
      (¬a.BeginsWild start → ∀ depth g, (Reading.ofWindow a w e).Recalls g →
        ∀ walked, (Query.ofWindow a w e cache).walkRule
            ((Query.ofWindow a w e cache).enterRule depth) ⟨r, i⟩ start g = walked →
          walked.ends = [] ∧ ∀ s events,
            Candidates.ofEvents s (events ++ walked.events) = .ofEvents s events)) ∧
    ((Reading.ofWindow a w e).Ordinary → (Query.ofWindow a w e cache).SparesWildcards) ∧
    ((Query.ofWindow a w e cache).SparesWildcards → ∀ s startRule,
      (suggest cache a s w startRule e).fst.candidates =
        .ofEvents s ((Query.ofWindow a w e cache).unpruned.events startRule)) := by
  have hw := hb.wellFormed
  have hf := hc.lookup
  have hx {r start i type} (hs : (Query.ofWindow a w e cache).Skips r start i type)
      (hwild : ¬a.BeginsWild start) : a.Excludes start type :=
    Query.excludes_of_rejects (q := .ofWindow a w e cache) hw hf hwild hs.rejects
  refine ⟨fun r start i type hs => ⟨⟨(·.not_beginsWild), hx hs⟩, ?_⟩,
    Query.sparesWildcards_of_ordinary (q := .ofWindow a w e cache) hw hf, ?_⟩
  · intro hwild depth g hg walked hwalk
    have ⟨hends, hrest⟩ := hwalk ▸ Query.walkRule_rests (f := ⟨r, i⟩) hw
      (Query.enterRule_rests hw depth) hs.before hs.token (hx hs hwild) rfl hg.calm
    exact ⟨hends, fun s events => Candidates.ofEvents_append_silent hrest.silent⟩
  · intro hspare s startRule
    have h := Query.telling_events (q := .ofWindow a w e cache) hw
      (fun r start i type hs => hx hs (hspare r start i type hs)) startRule
    calc (suggest cache a s w startRule e).fst.candidates
      _ = .ofEvents s (telling ((Query.ofWindow a w e cache).events startRule)) := by
        rw [suggest_candidates, Candidates.ofEvents_telling]
      _ = _ := by rw [h, Candidates.ofEvents_telling]

end Suggest

-- Either any token and the third one, or the first and the second one.
def anyOrPair : Automaton where
  id         := ⟨0⟩
  states     := [
    ⟨0, .ruleStart, 0, [⟨2, .rule 1 1⟩, ⟨4, .rule 2 1⟩]⟩,
    ⟨1, .ruleStop, 0, []⟩,
    ⟨2, .ruleStart, 1, [⟨6, .wildcard⟩]⟩,
    ⟨3, .ruleStop, 1, []⟩,
    ⟨4, .ruleStart, 2, [⟨7, .atom 1⟩]⟩,
    ⟨5, .ruleStop, 2, []⟩,
    ⟨6, .basic, 1, [⟨3, .atom 3⟩]⟩,
    ⟨7, .basic, 2, [⟨5, .atom 2⟩]⟩
  ]
  rules      := [⟨"choice", 0, 1⟩, ⟨"any", 2, 3⟩, ⟨"pair", 4, 5⟩]
  vocabulary := .empty
  maxType    := 3

theorem anyOrPair_built : anyOrPair.Built := by
  refine ⟨[.addRule "choice", .addRule "any", .addRule "pair", .addState 1 .basic,
    .addState 2 .basic, .addCall 0 1 1, .addCall 0 2 1, .addTransition 2 6 .wildcard,
    .addTransition 6 3 (.atom 3), .addTransition 4 7 (.atom 1), .addTransition 7 5 (.atom 2)],
    ⟨0⟩, ?_, rfl⟩
  simp [BuilderCall.Canonical, Label.Canonical]

-- A token of the type, and the caret after it.
def afterOne (type : TokenType) : Window where
  tokens   := [⟨type, "x", 0, 1, 0⟩, .eof 1 1 1]
  nonempty := by simp

-- The pair is skipped, and nothing else is.
theorem suggest_unpruned_anyOrPair :
    (Query.ofWindow anyOrPair (afterOne 3) .always .empty).Skips 2 4 0 3 ∧
      (suggest .empty anyOrPair .empty (afterOne 3) 0 .always).fst.candidates.tokens = [(3, [])] ∧
      (suggest .empty anyOrPair .empty (afterOne 3) 0 .always).fst.candidates = .ofEvents .empty
        ((Query.ofWindow anyOrPair (afterOne 3) .always .empty).unpruned.events 0) := by
  have ⟨_, hwild, h⟩ := suggest_unpruned anyOrPair_built FirstSetCache.faithful_empty (afterOne 3)
    .always
  refine ⟨⟨rfl, by decide, rfl, by decide +kernel⟩, by decide +kernel, h (hwild (.inl ?_)) .empty 0⟩
  intro i type hi ht
  cases Nat.lt_one_iff.mp hi
  cases ht
  decide

-- A token that no rule of the grammar names is consumed by a wildcard, but its rule is skipped.
theorem suggest_skipped_wildcard :
    anyOrPair.Built ∧ (Query.ofWindow anyOrPair (afterOne 0) .always .empty).Skips 1 2 0 0 ∧
      anyOrPair.BeginsWild 2 ∧
      (suggest .empty anyOrPair .empty (afterOne 0) 0 .always).fst.candidates.tokens = [] ∧
      (Candidates.ofEvents .empty
        ((Query.ofWindow anyOrPair (afterOne 0) .always .empty).unpruned.events 0)).tokens =
          [(3, [])] := by
  refine ⟨anyOrPair_built, ⟨rfl, by decide, rfl, by decide +kernel⟩, ?_, by decide +kernel,
    by decide +kernel⟩
  exact ⟨[], 2, ⟨6, .wildcard⟩, .start, ⟨_, rfl, rfl, List.mem_cons_self⟩, rfl⟩

end Caret
