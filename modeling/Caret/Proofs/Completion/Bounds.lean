import Caret.Proofs.Completion.FirstSets
import Caret.Proofs.Completion.Interleaving
import Mathlib.Data.Finset.Prod

-- The walk ends on every automaton, whatever its graph. A rule is remembered before it is walked
-- and never forgotten, so that it is walked at most once for each token before the caret, and a
-- walk visits each place at most once. None of the bounds is ever reached, and no token is asked
-- for that is not there.
namespace Caret

-- The invocation that is walked, or that a visit belongs to.
def Event.key? : Event → Option (RuleIndex × Nat)
  | walked rule entry      => some (rule, entry)
  | visited rule entry _ _ => some (rule, entry)
  | _                      => none

theorem Event.exists_of_visited? {e : Event} (h : e.visited?) :
    ∃ r i s j, e = .visited r i s j := by
  cases e <;> simp_all [visited?]

-- The event neither belongs to an invocation nor tells of a failure.
def Event.Quiet (e : Event) : Prop :=
  e.key? = none ∧ e ≠ .cutShort ∧ ∀ i, e ≠ .outside i

def Progress.keys (g : Progress) : List (RuleIndex × Nat) :=
  g.memo.map Prod.fst

-- All end indices that are known are in the window.
def Progress.Within (caret : Nat) (g : Progress) : Prop :=
  ∀ entry ∈ g.memo, ∀ j ∈ entry.snd, j ≤ caret

namespace Progress

variable {g : Progress} {rule : RuleIndex} {index caret : Nat} {ends : List Nat}

theorem ends?_eq_none (h : g.ends? rule index = none) : (rule, index) ∉ g.keys :=
  not_mem_keys_of_lookup h

theorem Within.remember (h : g.Within caret) (he : ∀ j ∈ ends, j ≤ caret) :
    (g.remember rule index ends).Within caret :=
  List.forall_mem_cons.mpr ⟨he, h⟩

end Progress

namespace Query

variable (q : Query)

def keys : Finset (RuleIndex × Nat) :=
  (q.automaton.states.map State.rule).toFinset ×ˢ Finset.range q.caret

def places : Finset Place :=
  (q.automaton.stateIds ×ˢ Finset.range (q.caret + 1)).image fun (s, i) => ⟨s, i⟩

-- The events between two points of a walk. Each event that belongs to an invocation happens once,
-- and is one of the walk's own or belongs to an invocation that is new.
structure Trace (own : Event → Prop) (g g' : Progress) (events : List Event) : Prop where
  uncut  : .cutShort ∉ events
  inside : ∀ i, .outside i ∉ events
  known  : g.keys ⊆ g'.keys
  within : g.Within q.caret → g'.Within q.caret
  fresh  : ∀ e ∈ events, ∀ k, e.key? = some k → own e ∨ k ∈ q.keys ∧ k ∉ g.keys ∧ k ∈ g'.keys
  once   : (events.filter (·.key?.isSome)).Nodup
  places : ∀ r i s j, .visited r i s j ∈ events → ⟨s, j⟩ ∈ q.places

-- What entering rules comes to, as long as fewer than `bound` invocations are not known.
def Enters (bound : Nat) (call : StateId → Nat → Progress → Walked) : Prop :=
  ∀ start i g, i ≤ q.caret → g.Within q.caret → remaining q.keys g.keys < bound →
    (∀ j ∈ (call start i g).ends, j ≤ q.caret) ∧
      q.Trace (fun _ => False) g (call start i g).progress (call start i g).events

-- A visit that the walk of an invocation can still make.
def Unvisited (f : Frame) (visited : List Place) (e : Event) : Prop :=
  ∃ p, p ∉ visited ∧ e = .visited f.rule f.entry p.state p.index

variable {q} {call : StateId → Nat → Progress → Walked} {g g' g'' : Progress} {own : Event → Prop}
  {e : Event} {events events' : List Event} {index bound : Nat} {t : Transition}
  {ts : List Transition} {current : TokenType} {f : Frame} {pending visited rest : List Place}
  {ends : List Nat} {fresh : Nat} {p : Place} {s : State} {stack : List RuleIndex}

theorem mem_places (hs : q.automaton.state? p.state = some s) (hp : p.index ≤ q.caret) :
    p ∈ q.places :=
  Finset.mem_image.mpr ⟨(p.state, p.index), by
    simp [Automaton.mem_stateIds hs, Nat.lt_succ_of_le hp], rfl⟩

theorem mem_keys {start : StateId} (hs : q.automaton.state? start = some s)
    (hi : index < q.caret) : (s.rule, index) ∈ q.keys := by
  have hm : s ∈ q.automaton.states := List.mem_of_getElem? hs
  simp only [keys, Finset.mem_product, List.mem_toFinset, Finset.mem_range]
  exact ⟨List.mem_map_of_mem hm, hi⟩

namespace Trace

theorem nil : q.Trace own g g [] where
  uncut  := by simp
  inside := by simp
  known  := List.Subset.refl _
  within := id
  fresh  := by simp
  once   := by simp
  places := by simp

theorem cons (h : q.Trace own g g' events) (he : e.Quiet) : q.Trace own g g' (e :: events) where
  uncut  := by simp [he.right.left.symm, h.uncut]
  inside := fun i => by simp [(he.right.right i).symm, h.inside]
  known  := h.known
  within := h.within
  fresh  := List.forall_mem_cons.mpr ⟨by simp [he.left], h.fresh⟩
  once   := by simpa [he.left] using h.once
  places := fun r i s j hm => by
    rcases List.mem_cons.mp hm with rfl | hm
    · simp [Event.Quiet, Event.key?] at he
    · exact h.places r i s j hm

theorem quiet (he : ∀ e ∈ events, e.Quiet) : q.Trace own g g events := by
  induction events
  case nil => exact nil
  case cons e events hi =>
    have ⟨he, hes⟩ := List.forall_mem_cons.mp he
    exact (hi hes).cons he

theorem append (h : q.Trace (fun _ => False) g g' events) (h' : q.Trace own g' g'' events')
    (ho : ∀ e k, own e → e.key? = some k → k ∈ g.keys) : q.Trace own g g'' (events ++ events') where
  uncut  := by simp [h.uncut, h'.uncut]
  inside := fun i => by simp [h.inside, h'.inside]
  known  := fun _ hm => h'.known (h.known hm)
  within := fun hg => h'.within (h.within hg)
  fresh  := by
    intro e hm k hk
    rcases List.mem_append.mp hm with hm | hm
    · have ⟨hq, hg, hg'⟩ := (h.fresh e hm k hk).resolve_left id
      exact .inr ⟨hq, hg, h'.known hg'⟩
    · exact (h'.fresh e hm k hk).imp_right fun ⟨hq, hg, hg'⟩ => ⟨hq, fun hn => hg (h.known hn), hg'⟩
  once   := by
    rw [List.filter_append]
    refine List.nodup_append.mpr ⟨h.once, h'.once, fun e hm e' hm' he => ?_⟩
    subst he
    have ⟨hm, hk⟩ := List.mem_filter.mp hm
    have ⟨k, hk⟩ := Option.isSome_iff_exists.mp hk
    have ⟨_, hg, hg'⟩ := (h.fresh e hm k hk).resolve_left id
    rcases h'.fresh e (List.mem_filter.mp hm').left k hk with ho' | ⟨_, hn, _⟩
    · exact hg (ho e k ho' hk)
    · exact hn hg'
  places := fun r i s j hm =>
    (List.mem_append.mp hm).elim (h.places r i s j) (h'.places r i s j)

-- The walk of an invocation makes a visit that it will not make again.
theorem visit (h : q.Trace (Unvisited f (p :: visited)) g g' events) (hp : p ∈ q.places)
    (hv : p ∉ visited) (hk : (f.rule, f.entry) ∈ g.keys) :
    q.Trace (Unvisited f visited) g g' (.visited f.rule f.entry p.state p.index :: events) where
  uncut  := by simp [h.uncut]
  inside := fun i => by simp [h.inside]
  known  := h.known
  within := h.within
  fresh  := by
    refine List.forall_mem_cons.mpr ⟨fun _ _ => .inl ⟨p, hv, rfl⟩, fun e hm k hk => ?_⟩
    refine (h.fresh e hm k hk).imp_left fun ⟨p', hp', he⟩ => ⟨p', ?_, he⟩
    exact fun hm => hp' (List.mem_cons_of_mem _ hm)
  once   := by
    rw [List.filter_cons_of_pos rfl, List.nodup_cons]
    refine ⟨fun hm => ?_, h.once⟩
    rcases h.fresh _ (List.mem_filter.mp hm).left _ rfl with ⟨p', hp', he⟩ | ⟨_, hg, _⟩
    · obtain ⟨s, i⟩ := p
      obtain ⟨s', i'⟩ := p'
      simp_all
    · exact hg hk
  places := fun r i s j hm => by
    rcases List.mem_cons.mp hm with heq | hm
    · cases heq
      exact hp
    · exact h.places r i s j hm

end Trace

theorem quiet_of_mem_move (he : e ∈ (q.move stack current index t).snd) : e.Quiet := by
  rcases mem_move_events he with ⟨_, rfl⟩ | ⟨_, _, rfl⟩ | ⟨_, _, _, rfl⟩
  all_goals simp [Event.Quiet, Event.key?]

theorem quiet_of_mem_offersOf {first : FirstSets} (he : e ∈ offersOf stack first) : e.Quiet := by
  simp only [offersOf, List.mem_cons, List.mem_map] at he
  rcases he with rfl | ⟨_, _, rfl⟩
  all_goals simp [Event.Quiet, Event.key?]

theorem take_trace (hc : q.Enters bound call) (hi : index ≤ q.caret) (hg : g.Within q.caret)
    (hr : remaining q.keys g.keys < bound) (ht : q.tokens[index]? = some current) :
    (∀ p ∈ (q.take call current index t g).places, p.index ≤ q.caret) ∧
      q.Trace (fun _ => False) g (q.take call current index t g).progress
        (q.take call current index t g).events := by
  generalize hw : q.take call current index t g = w
  cases taken_of_eq hw
  case call =>
    have ⟨he, htr⟩ := hc t.target index g hi hg hr
    exact ⟨List.forall_mem_map.mpr he, htr⟩
  case move =>
    refine ⟨fun p hp => ?_, .quiet fun e => quiet_of_mem_move⟩
    obtain ⟨j, hm, rfl⟩ := exists_moves_of_mem_move 0 ht hp
    exact hm.le_caret hi

theorem takeAll_trace (hc : q.Enters bound call) (hi : index ≤ q.caret) (hg : g.Within q.caret)
    (hr : remaining q.keys g.keys < bound) (ht : q.tokens[index]? = some current) :
    (∀ p ∈ (q.takeAll call current index ts g).places, p.index ≤ q.caret) ∧
      q.Trace (fun _ => False) g (q.takeAll call current index ts g).progress
        (q.takeAll call current index ts g).events := by
  induction ts generalizing g
  case nil => exact ⟨by simp [takeAll], .nil⟩
  case cons t ts hi' =>
    obtain ⟨hp, htr⟩ := take_trace hc hi hg hr ht (t := t)
    obtain ⟨hp', htr'⟩ := hi' (htr.within hg) (Nat.lt_of_le_of_lt (remaining_le htr.known) hr)
    exact ⟨List.forall_mem_append.mpr ⟨hp, hp'⟩, htr.append htr' (by simp)⟩

theorem nextPlace?_places (hn : q.nextPlace? visited pending = some (p, s, rest))
    (hp : ∀ p ∈ pending, p.index ≤ q.caret) :
    p ∉ visited ∧ p ∈ q.places ∧ p.index ≤ q.caret ∧ ∀ p ∈ rest, p.index ≤ q.caret := by
  have ⟨hv, _⟩ := nextPlace?_eq_some hn
  have ⟨hs, hm, hrest⟩ := mem_of_nextPlace? hn
  exact ⟨hv, mem_places hs (hp p hm), hp p hm, fun p hm => hp p (hrest p hm)⟩

theorem walkPlaces_trace (hq : q.caret < q.tokens.length) (hc : q.Enters bound call)
    (hg : g.Within q.caret) (hr : remaining q.keys g.keys < bound)
    (hk : (f.rule, f.entry) ∈ g.keys) (hp : ∀ p ∈ pending, p.index ≤ q.caret)
    (he : ∀ j ∈ ends, j ≤ q.caret) (hf : remaining q.places visited ≤ fresh) :
    (∀ j ∈ (q.walkPlaces call f fresh pending visited ends g).ends, j ≤ q.caret) ∧
      q.Trace (Unvisited f visited) g
        (q.walkPlaces call f fresh pending visited ends g).progress
        (q.walkPlaces call f fresh pending visited ends g).events := by
  induction fresh generalizing pending visited ends g
  all_goals
    generalize hw : q.walkPlaces call f _ pending visited ends g = w
    cases visiting_of_eq hw
  case zero.done => exact ⟨he, .nil⟩
  case zero.cut hn =>
    have ⟨hv, hm, _⟩ := nextPlace?_places hn hp
    exact absurd (remaining_cons_lt hm hv) (by omega)
  case succ.done => exact ⟨he, .nil⟩
  case succ.outside hn ho =>
    have ⟨_, _, hle, _⟩ := nextPlace?_places hn hp
    exact absurd (List.getElem?_eq_none_iff.mp ho) (by omega)
  case succ.stop fresh hi p s rest current after hn _ _ ha =>
    have ⟨hv, hm, hle, hrest⟩ := nextPlace?_places hn hp
    have hf' : remaining q.places (p :: visited) ≤ fresh :=
      Nat.le_of_lt_succ (Nat.lt_of_lt_of_le (remaining_cons_lt hm hv) hf)
    have hends : ∀ j ∈ addEnd ends p.index, j ≤ q.caret :=
      fun j hj => (mem_addEnd.mp hj).elim (he j) (· ▸ hle)
    have ⟨he', htr⟩ := hi hg hr hk hrest hends hf'
    subst ha
    exact ⟨he', htr.visit hm hv hk⟩
  case succ.step fresh hi p s rest current step after hn ht _ hst ha =>
    have ⟨hv, hm, hle, hrest⟩ := nextPlace?_places hn hp
    have hf' : remaining q.places (p :: visited) ≤ fresh :=
      Nat.le_of_lt_succ (Nat.lt_of_lt_of_le (remaining_cons_lt hm hv) hf)
    have ⟨hp', hstep⟩ := hst ▸ takeAll_trace hc hle hg hr ht
    have hfound : ∀ p ∈ step.places.reverse ++ rest, p.index ≤ q.caret :=
      List.forall_mem_append.mpr ⟨fun p hm => hp' p (List.mem_reverse.mp hm), hrest⟩
    have hr' := Nat.lt_of_le_of_lt (remaining_le hstep.known) hr
    have ⟨he', htr⟩ := hi (hstep.within hg) hr' (hstep.known hk) hfound he hf'
    subst ha
    refine ⟨he', (hstep.append htr ?_).visit hm hv hk⟩
    rintro e k ⟨_, _, rfl⟩ he
    cases he
    exact hk

theorem card_places : q.places.card ≤ q.automaton.states.length * (q.caret + 1) :=
  Nat.le_trans Finset.card_image_le (by simp [Automaton.stateIds])

theorem walkRule_trace {start : StateId} (hq : q.caret < q.tokens.length)
    (hc : q.Enters bound call) (hg : g.Within q.caret) (hr : remaining q.keys g.keys < bound)
    (hk : (f.rule, f.entry) ∈ g.keys) (hf : f.entry ≤ q.caret) :
    (∀ j ∈ (q.walkRule call f start g).ends, j ≤ q.caret) ∧
      q.Trace (Unvisited f []) g (q.walkRule call f start g).progress
        (q.walkRule call f start g).events :=
  walkPlaces_trace hq hc hg hr hk (List.forall_mem_singleton.mpr hf) (by simp)
    (Nat.le_trans remaining_le_card card_places)

theorem card_keys :
    q.keys.card = (q.automaton.states.map State.rule).toFinset.card * q.caret := by
  simp [keys]

-- The invocation is known before it is walked and is never forgotten, so that all its visits are
-- new to its caller.
theorem Trace.walked {rule : RuleIndex} (hq : (rule, index) ∈ q.keys)
    (hk : (rule, index) ∉ g.keys) (he : ∀ j ∈ ends, j ≤ q.caret)
    (h : q.Trace (Unvisited ⟨rule, index⟩ []) ((g.push rule).remember rule index []) g' events) :
    q.Trace (fun _ => False) g (g'.remember rule index ends).pop
      (.walked rule index :: events) where
  uncut  := by simp [h.uncut]
  inside := fun i => by simp [h.inside]
  known  := fun k hm =>
    List.mem_cons_of_mem _ (h.known (List.mem_cons_of_mem _ hm))
  within := fun hg => (h.within (hg.remember (by simp))).remember he
  fresh  := by
    refine List.forall_mem_cons.mpr ⟨fun k heq => ?_, fun e hm k heq => .inr ?_⟩
    · cases heq
      exact .inr ⟨hq, hk, List.mem_cons_self⟩
    · rcases h.fresh e hm k heq with ⟨_, _, rfl⟩ | ⟨hq', hg, hg'⟩
      · cases heq
        exact ⟨hq, hk, List.mem_cons_self⟩
      · exact ⟨hq', fun hn => hg (List.mem_cons_of_mem _ hn), List.mem_cons_of_mem _ hg'⟩
  once   := by
    rw [List.filter_cons_of_pos rfl, List.nodup_cons]
    refine ⟨fun hm => ?_, h.once⟩
    rcases h.fresh _ (List.mem_filter.mp hm).left _ rfl with ⟨_, _, heq⟩ | ⟨_, hg, _⟩
    · contradiction
    · exact hg List.mem_cons_self
  places := fun r i s j hm => h.places r i s j (by simpa using hm)

theorem enterRule_enters (hq : q.caret < q.tokens.length) (depth : Nat) :
    q.Enters depth (q.enterRule depth) := by
  induction depth
  case zero => exact fun _ _ _ _ _ h => absurd h (Nat.not_lt_zero _)
  case succ depth hi =>
    intro start i g hle hg hr
    have hconsult : (Event.consulted start).Quiet := by simp [Event.Quiet, Event.key?]
    generalize hw : q.enterRule _ start i g = w
    cases entering_of_eq hw
    case absent => exact ⟨by simp, .nil⟩
    case known _ hk => exact ⟨hg _ (Progress.mem_memo_of_ends? hk), .nil⟩
    case atCaret =>
      exact ⟨by simp, .quiet (List.forall_mem_cons.mpr ⟨hconsult, fun _ => quiet_of_mem_offersOf⟩)⟩
    case outside ho => exact absurd (List.getElem?_eq_none_iff.mp ho) (by omega)
    case rejected => exact ⟨by simp, .quiet (List.forall_mem_singleton.mpr hconsult)⟩
    case walked s current w hs hk hi' _ _ hwalk =>
      have hkey := mem_keys hs hi'
      have hn := Progress.ends?_eq_none hk
      let g' := (g.push s.rule).remember s.rule i []
      have hg' : g'.Within q.caret := hg.remember (by simp)
      have hr' : remaining q.keys g'.keys < depth :=
        Nat.lt_of_lt_of_le (remaining_cons_lt hkey hn) (Nat.le_of_lt_succ hr)
      have ⟨he, htr⟩ := hwalk ▸ walkRule_trace hq hi hg' hr' List.mem_cons_self hle
      exact ⟨he, (Trace.walked hkey hn he htr).cons hconsult⟩

-- The walk is over before any of its bounds, in the window, and does nothing twice.
structure Bounded (q : Query) (startRule : RuleIndex) : Prop where
  uncut   : .cutShort ∉ q.events startRule
  deeper  : ∀ depth start, q.automaton.states.length * q.caret + 1 ≤ depth →
    q.automaton.ruleStart? startRule = some start →
    (q.enterRule depth start 0 .empty).events = q.events startRule
  inside  : ∀ i, .outside i ∉ q.events startRule
  walked  : ∀ r i, .walked r i ∈ q.events startRule → i < q.caret
  walks   : ∀ r i, (q.events startRule).count (.walked r i) ≤ 1
  visits  : ∀ r i s j, (q.events startRule).count (.visited r i s j) ≤ 1
  visited : (q.events startRule).countP Event.visited? ≤
    (q.automaton.states.map State.rule).toFinset.card * q.caret *
      q.automaton.states.length * (q.caret + 1)

theorem Trace.count_le_one (h : q.Trace own g g' events) (he : e.key?.isSome) :
    events.count e ≤ 1 := by
  rw [← List.count_filter (p := (·.key?.isSome)) he]
  exact List.nodup_iff_count_le_one.mp h.once e

-- There are no more visits than there are invocations and places.
theorem Trace.countP_visited (h : q.Trace (fun _ => False) g g' events) :
    events.countP Event.visited? ≤ q.keys.card * q.places.card := by
  let visit (x : (RuleIndex × Nat) × Place) : Event :=
    .visited x.1.1 x.1.2 x.2.state x.2.index
  have hnodup : (events.filter Event.visited?).Nodup := by
    refine h.once.sublist (List.monotone_filter_right events fun e he => ?_)
    cases e <;> simp_all [Event.visited?, Event.key?]
  have hsub : (events.filter Event.visited?).toFinset ⊆ (q.keys ×ˢ q.places).image visit := by
    intro e hm
    obtain ⟨hm, hv⟩ := List.mem_filter.mp (List.mem_toFinset.mp hm)
    obtain ⟨r, i, s, j, rfl⟩ := Event.exists_of_visited? hv
    obtain ⟨hk, _⟩ := (h.fresh _ hm (r, i) rfl).resolve_left id
    exact Finset.mem_image.mpr
      ⟨((r, i), ⟨s, j⟩), Finset.mem_product.mpr ⟨hk, h.places r i s j hm⟩, rfl⟩
  calc events.countP Event.visited?
    _ = (events.filter Event.visited?).toFinset.card := by
      rw [List.toFinset_card_of_nodup hnodup, List.countP_eq_length_filter]
    _ ≤ (q.keys ×ˢ q.places).card := Nat.le_trans (Finset.card_le_card hsub) Finset.card_image_le
    _ = q.keys.card * q.places.card := Finset.card_product ..

theorem card_keys_le : q.keys.card ≤ q.automaton.states.length * q.caret := by
  rw [card_keys]
  refine Nat.mul_le_mul_right _ (Nat.le_trans (List.toFinset_card_le _) ?_)
  simp

theorem exists_trace (hq : q.caret < q.tokens.length) (startRule : RuleIndex) :
    ∃ g, q.Trace (fun _ => False) .empty g (q.events startRule) := by
  unfold events
  split
  case h_1 => exact ⟨_, .nil⟩
  case h_2 start _ =>
    have hr : remaining q.keys Progress.empty.keys < q.automaton.states.length * q.caret + 1 :=
      Nat.lt_succ_of_le (Nat.le_trans remaining_le_card card_keys_le)
    have hg : Progress.empty.Within q.caret := by simp [Progress.Within, Progress.empty]
    exact ⟨_, (enterRule_enters hq _ start 0 .empty (Nat.zero_le _) hg hr).right⟩

theorem events_bounded (hq : q.caret < q.tokens.length) (startRule : RuleIndex) :
    q.Bounded startRule := by
  have ⟨g, h⟩ := exists_trace hq startRule
  constructor
  case uncut => exact h.uncut
  case deeper =>
    intro depth start hd hs
    have hn := h.uncut
    simp only [events, hs] at hn ⊢
    rw [enterRule_of_le hd hn]
  case inside => exact h.inside
  case walked =>
    intro r i hm
    have ⟨hk, _⟩ := (h.fresh _ hm (r, i) rfl).resolve_left id
    exact Finset.mem_range.mp (Finset.mem_product.mp hk).right
  case walks => exact fun _ _ => h.count_le_one rfl
  case visits => exact fun _ _ _ _ => h.count_le_one rfl
  case visited =>
    refine Nat.le_trans h.countP_visited ?_
    rw [card_keys, Nat.mul_assoc (_ * _)]
    exact Nat.mul_le_mul_left _ card_places

end Query

theorem Window.caret_lt (w : Window) : w.caret < w.types.length := by
  have := List.length_pos_iff.mpr w.nonempty
  simp only [Window.caret, Window.types, List.length_map]
  omega

theorem Query.Bounded.clear {q : Query} {startRule : RuleIndex} (h : q.Bounded startRule) :
    Clear (q.events startRule) := by
  intro e hm
  cases e
  case outside i => exact absurd hm (h.inside i)
  case cutShort  => exact absurd hm h.uncut
  all_goals exact not_false

-- A walk ends, and what it comes to is what its events come to.
theorem Request.collect_eq {r : Request} (hq : r.caret < r.tokens.length) (startRule : RuleIndex)
    (cache : FirstSetCache) :
    ∃ g : Progress, g.stack = [] ∧ r.collect startRule cache =
      .ok (r.after (.start cache) g
        ((r.query (cache.lookup r.automaton)).events startRule)) := by
  have hc := (Query.events_bounded (q := r.query (cache.lookup r.automaton)) hq startRule).clear
  cases hs : (r.query (cache.lookup r.automaton)).automaton.ruleStart? startRule
  case none =>
    have hs' : r.automaton.ruleStart? startRule = none := hs
    simp only [collect, Query.events, hs, hs']
    exact ⟨.empty, rfl, congrArg _ after_nil.symm⟩
  case some start =>
    have hs' : r.automaton.ruleStart? startRule = some start := hs
    simp only [collect, Query.events, hs, hs'] at hc ⊢
    generalize hw : (r.query (cache.lookup r.automaton)).enterRule _ start 0 .empty = w at hc ⊢
    have hrun : r.enterRule (r.automaton.states.length * r.caret + 1) start 0 (.start cache) =
        .ok (w.ends, r.after (.start cache) w.progress w.events) :=
      hw ▸ enterRule_follows _ start 0 (.start cache) (fun _ => rfl) (hw ▸ hc)
    refine ⟨w.progress, hw ▸ Query.enterRule_stack, ?_⟩
    rw [hrun]
    rfl

section Window

variable (cache : FirstSetCache) (a : Automaton) (s : Settings) (w : Window)
  (startRule : RuleIndex) (e : Evaluator)

theorem suggest_eq :
    let events := (Query.ofWindow a w e cache).events startRule
    suggest cache a s w startRule e =
      (⟨.ofEvents s events, events.countP Event.visited?, events.filterMap Event.asked?⟩,
        cache.filled a events) := by
  intro events
  have ⟨g, _, h⟩ := Request.collect_eq (r := .ofWindow a s w e) w.caret_lt startRule cache
  have h : _ = Except.ok (Request.after _ _ g events) := h
  simp only [suggest, h, Request.after, Session.start, Nat.zero_add, List.nil_append]
  rfl

theorem suggest_candidates : (suggest cache a s w startRule e).fst.candidates =
    .ofEvents s ((Query.ofWindow a w e cache).events startRule) := by
  rw [suggest_eq]

theorem suggest_bounded :
    (Query.ofWindow a w e cache).Bounded startRule ∧
    (∃ g : Progress, g.stack = [] ∧ (Request.ofWindow a s w e).collect startRule cache =
      .ok ((Request.ofWindow a s w e).after (.start cache) g
        ((Query.ofWindow a w e cache).events startRule))) ∧
    (∀ depth start index g,
      ((Query.ofWindow a w e cache).enterRule depth start index g).progress.stack = g.stack) ∧
    (suggest cache a s w startRule e).fst.statesProcessed ≤
      (a.states.map State.rule).toFinset.card * w.caret * a.states.length * (w.caret + 1) ∧
    (∀ start, ∃ seen : List StateId, seen.Nodup ∧ seen.length ≤ a.states.length ∧ ∀ seen' out,
      FirstSets.Explores a (do a.ruleStop? (← a.state? start).rule) [] [.visit start []] seen' out ↔
        seen' = seen ∧ out = (FirstSets.compute a start).sets) ∧
    ∀ state, ∃ moves ≤ a.states.length, ∀ n F,
      a.Search [] state n F ↔ n = moves ∧ F = a.forcedFrom [] a.states.length state := by
  have h := Query.events_bounded (q := .ofWindow a w e cache) w.caret_lt startRule
  refine ⟨h, Request.collect_eq w.caret_lt startRule cache,
    fun _ _ _ _ => Query.enterRule_stack, ?_,
    FirstSets.exploration_finishes a, a.search_finishes⟩
  rw [suggest_eq]
  exact h.visited

end Window

end Caret
