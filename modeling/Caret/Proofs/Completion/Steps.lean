import Caret.Proofs.Completion.Paths
import Caret.Proofs.Completion.Trace

-- What a walk can do, said once for each of its functions. A walk leaves the stack as it was, and
-- one that is not cut short is the same with any larger bound.
namespace Caret

section Lookup

variable {α β : Type} [BEq α] [LawfulBEq α] {entries : List (α × β)} {key : α} {value : β}

theorem mem_of_lookup (h : entries.lookup key = some value) : (key, value) ∈ entries := by
  have ⟨before, after, he, _⟩ := List.lookup_eq_some_iff.mp h
  simp [he]

theorem not_mem_keys_of_lookup (h : entries.lookup key = none) : key ∉ entries.map Prod.fst := by
  intro hm
  have ⟨entry, hm, he⟩ := List.mem_map.mp hm
  have := List.lookup_eq_none_iff.mp h entry hm
  simp [he] at this

theorem lookup_cons_eq [DecidableEq α] {key' : α} : ((key', value) :: entries).lookup key =
    if key = key' then some value else entries.lookup key := by
  rw [List.lookup_cons]
  split <;> simp_all

end Lookup

namespace Progress

variable {g : Progress} {rule : RuleIndex} {index : Nat} {ends : List Nat}

@[simp] theorem pop_push : (g.push rule).pop = g := by
  simp [pop, push]

theorem mem_memo_of_ends? (h : g.ends? rule index = some ends) :
    ((rule, index), ends) ∈ g.memo :=
  mem_of_lookup h

theorem ends?_remember {rule' : RuleIndex} {index' : Nat} :
    (g.remember rule index ends).ends? rule' index' =
      if (rule', index') = (rule, index) then some ends else g.ends? rule' index' :=
  lookup_cons_eq

end Progress

namespace Query

variable (q : Query)

-- What becomes of a transition.
inductive Taken (call : StateId → Nat → Progress → Walked) (current : TokenType) (index : Nat)
    (t : Transition) (g : Progress) : Stepped → Prop
  | call {r follow} : t.label = .rule r follow →
    Taken call current index t g ⟨(call t.target index g).ends.map (⟨follow, ·⟩),
      (call t.target index g).progress, (call t.target index g).events⟩
  | move : (∀ r follow, t.label ≠ .rule r follow) →
    Taken call current index t g
      ⟨(q.move g.stack current index t).fst, g, (q.move g.stack current index t).snd⟩

-- What becomes of the places that are pending.
inductive Visiting (call : StateId → Nat → Progress → Walked) (f : Frame)
    (pending visited : List Place) (ends : List Nat) (g : Progress) : (fresh : Nat) → Walked → Prop
  | done {fresh} : q.nextPlace? visited pending = none →
    Visiting call f pending visited ends g fresh ⟨ends, g, []⟩
  | cut {p s rest} : q.nextPlace? visited pending = some (p, s, rest) →
    Visiting call f pending visited ends g 0 ⟨ends, g, [.cutShort]⟩
  | outside {fresh p s rest} : q.nextPlace? visited pending = some (p, s, rest) →
    q.tokens[p.index]? = none →
    Visiting call f pending visited ends g (fresh + 1) ⟨ends, g, [.outside p.index]⟩
  | stop {fresh p s rest current after} : q.nextPlace? visited pending = some (p, s, rest) →
    q.tokens[p.index]? = some current → s.isStop →
    after = q.walkPlaces call f fresh rest (p :: visited) (addEnd ends p.index) g →
    Visiting call f pending visited ends g (fresh + 1)
      ⟨after.ends, after.progress, .visited f.rule f.entry p.state p.index :: after.events⟩
  | step {fresh p s rest current step after} :
    q.nextPlace? visited pending = some (p, s, rest) →
    q.tokens[p.index]? = some current → s.isStop = false →
    step = q.takeAll call current p.index s.transitions g →
    after = q.walkPlaces call f fresh (step.places.reverse ++ rest) (p :: visited) ends
      step.progress →
    Visiting call f pending visited ends g (fresh + 1) ⟨after.ends, after.progress,
      .visited f.rule f.entry p.state p.index :: step.events ++ after.events⟩

-- What becomes of the entry of a rule.
inductive Entering (start : StateId) (index : Nat) (g : Progress) : (depth : Nat) → Walked → Prop
  | cut : Entering start index g 0 ⟨[], g, [.cutShort]⟩
  | absent {depth} : q.automaton.state? start = none →
    Entering start index g (depth + 1) ⟨[], g, []⟩
  | known {depth s ends} : q.automaton.state? start = some s →
    g.ends? s.rule index = some ends → Entering start index g (depth + 1) ⟨ends, g, []⟩
  | atCaret {depth s} : q.automaton.state? start = some s → g.ends? s.rule index = none →
    q.caret ≤ index → Entering start index g (depth + 1)
      ⟨[], g, .consulted start :: offersOf (g.stack ++ [s.rule]) (q.first start)⟩
  | outside {depth s} : q.automaton.state? start = some s → g.ends? s.rule index = none →
    index < q.caret → q.tokens[index]? = none → Entering start index g (depth + 1)
      ⟨[], g, [.consulted start, .outside index]⟩
  | rejected {depth s current} : q.automaton.state? start = some s →
    g.ends? s.rule index = none → index < q.caret → q.tokens[index]? = some current →
    q.rejects (q.first start) current → Entering start index g (depth + 1)
      ⟨[], g, [.consulted start]⟩
  | walked {depth s current w} : q.automaton.state? start = some s →
    g.ends? s.rule index = none → index < q.caret → q.tokens[index]? = some current →
    q.rejects (q.first start) current = false →
    w = q.walkRule (q.enterRule depth) ⟨s.rule, index⟩ start
      ((g.push s.rule).remember s.rule index []) →
    Entering start index g (depth + 1) ⟨w.ends, (w.progress.remember s.rule index w.ends).pop,
      .consulted start :: .walked s.rule index :: w.events⟩

variable {q} {call call' : StateId → Nat → Progress → Walked} {current : TokenType} {index : Nat}
  {t : Transition} {ts : List Transition} {g : Progress} {f : Frame}
  {pending visited rest : List Place} {ends : List Nat} {fresh depth : Nat} {start : StateId}
  {p : Place} {s : State} {stack : List RuleIndex}

theorem taken_of_eq {w : Stepped} (h : q.take call current index t g = w) :
    q.Taken call current index t g w := by
  subst h
  unfold take
  split
  case h_1 h => exact .call h
  case h_2 h => exact .move h

theorem visiting_of_eq {w : Walked} (h : q.walkPlaces call f fresh pending visited ends g = w) :
    q.Visiting call f pending visited ends g fresh w := by
  subst h
  cases fresh <;> unfold walkPlaces
  case zero =>
    split
    case h_1 h => exact .done h
    case h_2 h => exact .cut h
  case succ =>
    split
    case h_1 h => exact .done h
    case h_2 h =>
      split
      case h_1 ho => exact .outside h ho
      case h_2 hc =>
        dsimp only
        split
        case isTrue hs => exact .stop h hc hs rfl
        case isFalse hs => exact .step h hc (by simpa using hs) rfl rfl

theorem entering_of_eq {w : Walked} (h : q.enterRule depth start index g = w) :
    q.Entering start index g depth w := by
  subst h
  cases depth <;> unfold enterRule
  case zero => exact .cut
  case succ =>
    split
    case h_1 h => exact .absent h
    case h_2 h =>
      split
      case h_1 hr => exact .known h hr
      case h_2 hr =>
        simp only [Progress.pop_push]
        split
        case isTrue hc => exact .atCaret h hr hc
        case isFalse hc =>
          split
          case h_1 ho => exact .outside h hr (Nat.not_le.mp hc) ho
          case h_2 ht =>
            split
            case isTrue hj => exact .rejected h hr (Nat.not_le.mp hc) ht hj
            case isFalse hj =>
              exact .walked h hr (Nat.not_le.mp hc) ht (by simpa using hj) rfl

section Equations

variable (hs : q.automaton.state? start = some s)

include hs

theorem enterRule_known (hk : g.ends? s.rule index = some ends) :
    q.enterRule (depth + 1) start index g = ⟨ends, g, []⟩ := by
  simp [enterRule, hs, hk]

variable (hk : g.ends? s.rule index = none)

include hk

theorem enterRule_atCaret (hi : q.caret ≤ index) : q.enterRule (depth + 1) start index g =
    ⟨[], g, .consulted start :: offersOf (g.stack ++ [s.rule]) (q.first start)⟩ := by
  simp only [enterRule, hs, hk, if_pos hi, Progress.pop_push]
  rfl

variable (hi : index < q.caret)

include hi

theorem enterRule_outside (ht : q.tokens[index]? = none) :
    q.enterRule (depth + 1) start index g = ⟨[], g, [.consulted start, .outside index]⟩ := by
  simp [enterRule, hs, hk, Nat.not_le.mpr hi, ht]

theorem enterRule_walked {w : Walked} (ht : q.tokens[index]? = some current)
    (hj : q.rejects (q.first start) current = false)
    (hw : w = q.walkRule (q.enterRule depth) ⟨s.rule, index⟩ start
      ((g.push s.rule).remember s.rule index [])) :
    q.enterRule (depth + 1) start index g = ⟨w.ends, (w.progress.remember s.rule index w.ends).pop,
      .consulted start :: .walked s.rule index :: w.events⟩ := by
  simp [enterRule, hs, hk, Nat.not_le.mpr hi, ht, hj, hw]

end Equations

section Visit

variable (hn : q.nextPlace? visited pending = some (p, s, rest))
  (ht : q.tokens[p.index]? = some current)

include hn ht

theorem walkPlaces_stop (hs : s.isStop) :
    (q.walkPlaces call f (fresh + 1) pending visited ends g).events =
      .visited f.rule f.entry p.state p.index ::
        (q.walkPlaces call f fresh rest (p :: visited) (addEnd ends p.index) g).events := by
  simp [walkPlaces, hn, ht, hs]

theorem walkPlaces_step {step : Stepped} (hs : s.isStop = false)
    (he : step = q.takeAll call current p.index s.transitions g) :
    (q.walkPlaces call f (fresh + 1) pending visited ends g).events =
      .visited f.rule f.entry p.state p.index :: (step.events ++
        (q.walkPlaces call f fresh (step.places.reverse ++ rest) (p :: visited) ends
          step.progress).events) := by
  simp [walkPlaces, hn, ht, hs, he]

end Visit

theorem takeAll_append {ts' : List Transition} : q.takeAll call current index (ts ++ ts') g =
    let first := q.takeAll call current index ts g
    let rest  := q.takeAll call current index ts' first.progress
    ⟨first.places ++ rest.places, rest.progress, first.events ++ rest.events⟩ := by
  induction ts generalizing g
  case nil => simp [takeAll]
  case cons t ts hi => simp [takeAll, hi]

theorem exists_of_mem_takeAll {e : Event}
    (he : e ∈ (q.takeAll call current index ts g).events) :
    ∃ before t after, ts = before ++ t :: after ∧
      e ∈ (q.take call current index t
        (q.takeAll call current index before g).progress).events := by
  induction ts generalizing g
  case nil => simp [takeAll] at he
  case cons t ts hi =>
    rcases List.mem_append.mp he with he | he
    · exact ⟨[], t, ts, rfl, he⟩
    · obtain ⟨before, t', after, rfl, he'⟩ := hi he
      exact ⟨t :: before, t', after, rfl, he'⟩

-- Places that are skipped have been visited or do not exist.
theorem nextPlace?_eq_some (h : q.nextPlace? visited pending = some (p, s, rest)) :
    p ∉ visited ∧ q.automaton.state? p.state = some s ∧ ∃ skipped, pending = skipped ++ p :: rest ∧
      ∀ p' ∈ skipped, p' ∈ visited ∨ q.automaton.state? p'.state = none := by
  induction pending
  case nil => simp [Reading.nextPlace?] at h
  case cons p' pending hi =>
    unfold Reading.nextPlace? at h
    split at h
    case isTrue hv =>
      obtain ⟨hp, hs, skipped, rfl, hk⟩ := hi h
      exact ⟨hp, hs, p' :: skipped, rfl, List.forall_mem_cons.mpr ⟨.inl hv, hk⟩⟩
    case isFalse hv =>
      split at h
      case h_1 hn =>
        obtain ⟨hp, hs, skipped, rfl, hk⟩ := hi h
        exact ⟨hp, hs, p' :: skipped, rfl, List.forall_mem_cons.mpr ⟨.inr hn, hk⟩⟩
      case h_2 hs =>
        cases h
        exact ⟨hv, hs, [], rfl, by simp⟩

theorem mem_of_nextPlace? (h : q.nextPlace? visited pending = some (p, s, rest)) :
    q.automaton.state? p.state = some s ∧ p ∈ pending ∧ ∀ p' ∈ rest, p' ∈ pending := by
  obtain ⟨_, hs, skipped, rfl, _⟩ := nextPlace?_eq_some h
  exact ⟨hs, by simp, fun p' hm => by simp [hm]⟩

theorem nextPlace?_eq_none (h : q.nextPlace? visited pending = none) :
    ∀ p ∈ pending, p ∈ visited ∨ q.automaton.state? p.state = none := by
  induction pending
  case nil => simp
  case cons p pending hi =>
    unfold Reading.nextPlace? at h
    split at h
    case isTrue hv => exact List.forall_mem_cons.mpr ⟨.inl hv, hi h⟩
    case isFalse =>
      split at h
      case h_1 hn => exact List.forall_mem_cons.mpr ⟨.inr hn, hi h⟩
      case h_2 => contradiction

theorem mem_addEnd {j : Nat} : j ∈ addEnd ends index ↔ j ∈ ends ∨ j = index := by
  unfold addEnd
  split
  case isTrue h => exact ⟨.inl, fun hj => hj.elim id (· ▸ h)⟩
  case isFalse => simp

section Move

theorem exists_moves_of_mem_move (entry : Nat) (hc : q.tokens[index]? = some current)
    (hp : p ∈ (q.move stack current index t).fst) :
    ∃ j, q.Moves entry t index j ∧ p = ⟨t.target, j⟩ := by
  unfold move at hp
  split at hp
  case h_1 => simp at hp
  case h_2 id h =>
    split at hp
    case isTrue hh =>
      cases List.mem_singleton.mp hp
      exact ⟨index, .test h (.inl hh), rfl⟩
    case isFalse => simp at hp
  case h_3 h =>
    cases List.mem_singleton.mp hp
    exact ⟨index, .free h, rfl⟩
  case h_4 h =>
    split at hp
    case isTrue => simp at hp
    case isFalse hi =>
      cases List.mem_singleton.mp hp
      exact ⟨index + 1, .consume (Nat.not_le.mp hi) hc (.inl h), rfl⟩
  all_goals
    rename_i h
    split at hp
    case h_1 => simp at hp
    case h_2 symbols hs =>
      split at hp
      case isTrue => simp at hp
      case isFalse =>
        split at hp
        case isTrue => simp at hp
        case isFalse hi =>
          simp only [List.mem_ite_nil_right, List.mem_singleton] at hp
          obtain ⟨hm, rfl⟩ := hp
          have hm := IntervalSet.mem_of_contains hm
          exact ⟨index + 1, .consume (Nat.not_le.mp hi) hc (.inr ⟨symbols, hs, hm⟩), rfl⟩

-- In a rule entered before the caret a predicate that lets a move pass holds.
theorem mem_move_of_moves {entry j : Nat} (hl : t.label.Canonical) (he : entry < q.caret)
    (hc : q.tokens[index]? = some current) (h : q.Moves entry t index j) :
    ⟨t.target, j⟩ ∈ (q.move stack current index t).fst := by
  obtain ⟨target, label⟩ := t
  cases h
  case free h =>
    subst h
    simp [move]
  case test id h hh =>
    subst h
    simp [move, hh.resolve_right (Nat.not_le.mpr he)]
  case consume type hi ht ha =>
    cases ht.symm.trans hc
    have hle := Nat.not_le.mpr hi
    rcases ha with h | ⟨symbols, hs, hm⟩
    · subst h
      simp [move, hle]
    · have hn := IntervalSet.isEmpty_eq_false_of_mem hm
      have hm := (hl.contains_iff hs).mpr hm
      cases label <;> simp only [Label.matchSet?, reduceCtorEq] at hs
      all_goals simp [move, Label.matchSet?, Option.some.inj hs, hn, hle, hm]

theorem mem_move_events {e : Event} (he : e ∈ (q.move stack current index t).snd) :
    (∃ id, e = .asked id) ∨ t.label = .epsilon ∧ q.caret ≤ index ∧ e = .passed stack ∨
      ∃ symbols, q.caret ≤ index ∧ q.automaton.symbols? t = some symbols ∧
        e = .offered stack symbols (q.automaton.forcedAfter t) := by
  unfold move at he
  split at he
  case h_1 => simp at he
  case h_2 id _ => exact .inl ⟨id, List.mem_singleton.mp he⟩
  case h_3 h =>
    simp only [List.mem_ite_nil_right, List.mem_singleton] at he
    exact .inr (.inl ⟨h, he⟩)
  case h_4 h =>
    split at he
    case isTrue hi =>
      refine .inr (.inr ⟨q.automaton.userTypes, hi, by simp [Automaton.symbols?, h], ?_⟩)
      simpa [Automaton.forcedAfter, h] using he
    case isFalse => simp at he
  all_goals
    rename_i h
    split at he
    case h_1 => simp at he
    case h_2 symbols hs =>
      split at he
      case isTrue => simp at he
      case isFalse =>
        split at he
        case isTrue hi =>
          refine .inr (.inr ⟨symbols, hi, ?_, List.mem_singleton.mp he⟩)
          simpa [Automaton.symbols?, h] using hs
        case isFalse => simp at he

theorem offered_mem_move {symbols : IntervalSet} (hi : q.caret ≤ index)
    (hs : q.automaton.symbols? t = some symbols) (hn : symbols.isEmpty = false) :
    .offered stack symbols (q.automaton.forcedAfter t) ∈ (q.move stack current index t).snd := by
  obtain ⟨target, label⟩ := t
  cases label <;> simp_all [Automaton.symbols?, move, Automaton.forcedAfter, Label.matchSet?]

end Move

section Stack

theorem take_stack (hc : ∀ start i g, (call start i g).progress.stack = g.stack) :
    (q.take call current index t g).progress.stack = g.stack := by
  generalize hw : q.take call current index t g = w
  cases taken_of_eq hw
  case call => exact hc ..
  case move => rfl

theorem takeAll_stack (hc : ∀ start i g, (call start i g).progress.stack = g.stack) :
    (q.takeAll call current index ts g).progress.stack = g.stack := by
  induction ts generalizing g
  case nil => rfl
  case cons t ts hi => exact hi.trans (take_stack hc)

theorem walkPlaces_stack (hc : ∀ start i g, (call start i g).progress.stack = g.stack) :
    (q.walkPlaces call f fresh pending visited ends g).progress.stack = g.stack := by
  induction fresh generalizing pending visited ends g
  all_goals
    generalize hw : q.walkPlaces call f _ pending visited ends g = w
    cases visiting_of_eq hw
  case succ.stop hi _ _ _ _ _ _ _ _ ha => exact ha ▸ hi
  case succ.step hi _ _ _ _ _ _ _ _ _ hs ha => exact ha ▸ hi.trans (hs ▸ takeAll_stack hc)
  all_goals rfl

-- A rule is pushed when it is entered and popped when it is left.
theorem enterRule_stack : (q.enterRule depth start index g).progress.stack = g.stack := by
  induction depth generalizing start index g
  all_goals
    generalize hw : q.enterRule _ start index g = w
    cases entering_of_eq hw
  case succ.walked hi s _ w _ _ _ _ _ he =>
    have hs : w.progress.stack = g.stack ++ [s.rule] := he ▸ walkPlaces_stack fun _ _ _ => hi
    simp [Progress.pop, Progress.remember, hs]
  all_goals rfl

end Stack

section Bound

variable (hc : ∀ start i g, .cutShort ∉ (call start i g).events → call' start i g = call start i g)

include hc

theorem take_congr (hn : .cutShort ∉ (q.take call current index t g).events) :
    q.take call' current index t g = q.take call current index t g := by
  unfold take at hn ⊢
  split
  case h_1 h =>
    simp only [h] at hn
    rw [hc _ _ _ hn]
  case h_2 => rfl

theorem takeAll_congr (hn : .cutShort ∉ (q.takeAll call current index ts g).events) :
    q.takeAll call' current index ts g = q.takeAll call current index ts g := by
  induction ts generalizing g
  case nil => rfl
  case cons t ts hi =>
    simp only [takeAll, List.mem_append, not_or] at hn ⊢
    rw [take_congr hc hn.left, hi hn.right]

theorem walkPlaces_congr
    (hn : .cutShort ∉ (q.walkPlaces call f fresh pending visited ends g).events) :
    q.walkPlaces call' f fresh pending visited ends g =
      q.walkPlaces call f fresh pending visited ends g := by
  induction fresh generalizing pending visited ends g
  case zero => rfl
  case succ fresh hi =>
    unfold walkPlaces at hn ⊢
    split at hn
    case h_1 => rfl
    case h_2 =>
      split at hn
      case h_1 => rfl
      case h_2 =>
        dsimp only at hn ⊢
        split at hn
        case isTrue hs =>
          simp only [List.mem_cons, not_or] at hn
          rw [if_pos hs, if_pos hs, hi hn.right]
        case isFalse hs =>
          simp only [List.cons_append, List.mem_cons, List.mem_append, not_or] at hn
          rw [if_neg hs, if_neg hs, takeAll_congr hc hn.right.left, hi hn.right.right]

end Bound

theorem enterRule_congr {depth depth' : Nat}
    (hc : ∀ start i g, .cutShort ∉ (q.enterRule depth start i g).events →
      q.enterRule depth' start i g = q.enterRule depth start i g)
    (hn : .cutShort ∉ (q.enterRule (depth + 1) start index g).events) :
    q.enterRule (depth' + 1) start index g = q.enterRule (depth + 1) start index g := by
  unfold enterRule at hn ⊢
  split
  case h_1 => rfl
  case h_2 hs =>
    simp only [hs] at hn
    split
    case h_1 => rfl
    case h_2 hr =>
      simp only [hr] at hn
      dsimp only
      split
      case isTrue => rfl
      case isFalse hi =>
        rw [if_neg hi] at hn
        split
        case h_1 => rfl
        case h_2 ht =>
          simp only [ht] at hn
          split
          case isTrue => rfl
          case isFalse hj =>
            simp only [if_neg hj, List.mem_cons, reduceCtorEq, false_or] at hn
            simp only [walkRule, walkPlaces_congr hc hn]

-- A walk that is not cut short is the same with any larger bound.
theorem enterRule_of_le {depth depth' : Nat} (hd : depth ≤ depth')
    (hn : .cutShort ∉ (q.enterRule depth start index g).events) :
    q.enterRule depth' start index g = q.enterRule depth start index g := by
  induction depth generalizing depth' start index g
  case zero => simp [enterRule] at hn
  case succ depth hi =>
    cases depth'
    case zero => contradiction
    case succ depth' => exact enterRule_congr (fun _ _ _ => hi (Nat.le_of_succ_le_succ hd)) hn

end Query
end Caret
