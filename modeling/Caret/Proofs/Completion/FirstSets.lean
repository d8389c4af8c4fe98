import Caret.Proofs.Automaton.Built
import Caret.Proofs.Completion.Paths
import Mathlib.Data.Finset.Card
import Mathlib.Data.Finset.Range

-- First sets are the transitions that can be met without a token. The exploration sees every state
-- that can be reached so and records what can be taken there. Both it and the search for forced
-- tokens end by themselves on every automaton, and neither is ever cut short by its bound.
namespace Caret

section Remaining

variable {α : Type} [DecidableEq α] {all : Finset α} {seen seen' : List α} {x : α}

-- How many values have not been seen.
def remaining (all : Finset α) (seen : List α) : Nat :=
  (all \ seen.toFinset).card

theorem remaining_cons_lt (hx : x ∈ all) (hn : x ∉ seen) :
    remaining all (x :: seen) < remaining all seen := by
  refine Finset.card_lt_card ⟨?_, fun h => ?_⟩
  · exact Finset.sdiff_subset_sdiff (Finset.Subset.refl _) (by simp)
  · have := h (show x ∈ all \ seen.toFinset by simp [hx, hn])
    simp at this

theorem remaining_le (h : seen ⊆ seen') : remaining all seen' ≤ remaining all seen :=
  Finset.card_le_card <|
    Finset.sdiff_subset_sdiff (Finset.Subset.refl _) fun _ => by simpa using @h _

theorem remaining_le_card : remaining all seen ≤ all.card :=
  Finset.card_le_card Finset.sdiff_subset

end Remaining

namespace Automaton

variable (a : Automaton)

def stateIds : Finset StateId :=
  Finset.range a.states.length

-- Without a token, with `rules` called in one another, the state can be reached from `start`.
inductive Begins (start : StateId) : List RuleIndex → StateId → Prop
  | start : Begins start [] start
  | free {rules s t} : Begins start rules s → a.Leaves s t → t.IsFree → Begins start rules t.target
  | call {rules s target r follow} : Begins start rules s →
    a.Leaves s ⟨target, .rule r follow⟩ → Begins start (rules ++ [r]) target

-- The state cannot be left but by one transition, which consumes a certain token or none.
def OneWay (s : StateId) : Prop :=
  ∃ state t, a.state? s = some state ∧ state.isStop = false ∧ state.transitions = [t] ∧
    (t.label = .epsilon ∨ ∃ type, t.label = .atom type)

-- The search for forced tokens without a bound, with the number of transitions that it follows.
inductive Search : (visited : List StateId) → StateId → (moves : Nat) → List TokenType → Prop
  | known {visited s} : s ∈ visited → Search visited s 0 []
  | ends {visited s} : s ∉ visited → ¬a.OneWay s → Search visited s 0 []
  | atom {visited s state target type moves F} : s ∉ visited → a.state? s = some state →
    state.isStop = false → state.transitions = [⟨target, .atom type⟩] →
    Search (s :: visited) target moves F → Search visited s (moves + 1) (type :: F)
  | free {visited s state target moves F} : s ∉ visited → a.state? s = some state →
    state.isStop = false → state.transitions = [⟨target, .epsilon⟩] →
    Search (s :: visited) target moves F → Search visited s (moves + 1) F

variable {a} {s : StateId} {state : State} {visited : List StateId} {n : Nat}

theorem mem_stateIds (h : a.state? s = some state) : s ∈ a.stateIds :=
  Finset.mem_range.mpr (List.getElem?_eq_some_iff.mp h).fst

theorem WellFormed.ruleStart?_eq {target follow : StateId} {r : RuleIndex} (hw : a.WellFormed)
    (hl : a.Leaves s ⟨target, .rule r follow⟩) : a.ruleStart? r = some target :=
  have ⟨_, hs, _, hm⟩ := hl
  hw.call hs hm

theorem WellFormed.canonical {t : Transition} (hw : a.WellFormed) (hl : a.Leaves s t) :
    t.label.Canonical :=
  have ⟨_, hs, _, hm⟩ := hl
  hw.label hs hm

theorem WellFormed.rule_eq {r : RuleIndex} (hw : a.WellFormed) (hr : a.ruleStart? r = some s)
    (hs : a.state? s = some state) : state.rule = r := by
  have ⟨_, hs', hrule, _⟩ := hw.start hr
  cases hs.symm.trans hs'
  exact hrule

section Search

variable {target : StateId} {type : TokenType} {F F' : List TokenType} {m : Nat}

theorem oneWay_of_atom (hs : a.state? s = some state)
    (hstop : state.isStop = false) (ht : state.transitions = [⟨target, .atom type⟩]) :
    a.OneWay s :=
  ⟨state, _, hs, hstop, ht, .inr ⟨type, rfl⟩⟩

theorem oneWay_of_free (hs : a.state? s = some state)
    (hstop : state.isStop = false) (ht : state.transitions = [⟨target, .epsilon⟩]) :
    a.OneWay s :=
  ⟨state, _, hs, hstop, ht, .inl rfl⟩

-- The search has one result.
theorem Search.unique (h : a.Search visited s n F) (h' : a.Search visited s m F') :
    n = m ∧ F = F' := by
  induction h generalizing m F'
  case known hv =>
    rcases h' with _ | _ | _ | _
    · exact ⟨rfl, rfl⟩
    all_goals contradiction
  case ends hv ho =>
    rcases h' with _ | _ | ⟨_, hs, hstop, ht, _⟩ | ⟨_, hs, hstop, ht, _⟩
    · contradiction
    · exact ⟨rfl, rfl⟩
    · exact absurd (oneWay_of_atom hs hstop ht) ho
    · exact absurd (oneWay_of_free hs hstop ht) ho
  case atom hv hs hstop ht _ hi =>
    rcases h' with _ | ⟨_, ho⟩ | ⟨_, hs', _, ht', h'⟩ | ⟨_, hs', _, ht', _⟩
    · contradiction
    · exact absurd (oneWay_of_atom hs hstop ht) ho
    · cases hs.symm.trans hs'
      cases ht.symm.trans ht'
      simpa using hi h'
    · cases hs.symm.trans hs'
      cases ht.symm.trans ht'
  case free hv hs hstop ht _ hi =>
    rcases h' with _ | ⟨_, ho⟩ | ⟨_, hs', _, ht', _⟩ | ⟨_, hs', _, ht', h'⟩
    · contradiction
    · exact absurd (oneWay_of_free hs hstop ht) ho
    · cases hs.symm.trans hs'
      cases ht.symm.trans ht'
    · cases hs.symm.trans hs'
      cases ht.symm.trans ht'
      simpa using hi h'

theorem forcedFrom_eq_nil (ho : ¬a.OneWay s) : a.forcedFrom visited n s = [] := by
  cases n
  case zero => rfl
  case succ n =>
    unfold forcedFrom
    split <;> try rfl
    split <;> try rfl
    split <;> try rfl
    case h_2.isFalse hs hstop =>
      have hstop := Bool.eq_false_iff.mpr hstop
      split
      case h_1 ht => exact absurd (oneWay_of_atom hs hstop ht) ho
      case h_2 ht => exact absurd (oneWay_of_free hs hstop ht) ho
      case h_3 => rfl

-- Only a state that was not visited before takes the search on.
theorem forcedFrom_search (hr : remaining a.stateIds visited ≤ n) :
    ∃ moves ≤ n, a.Search visited s moves (a.forcedFrom visited n s) := by
  induction n generalizing visited s
  case zero =>
    by_cases hv : s ∈ visited
    case pos => exact ⟨0, Nat.le_refl _, .known hv⟩
    case neg =>
      refine ⟨0, Nat.le_refl _, .ends hv fun ⟨_, _, hs, _⟩ => ?_⟩
      have hlt := remaining_cons_lt (mem_stateIds hs) hv
      omega
  case succ n hi =>
    by_cases hv : s ∈ visited
    case pos => exact ⟨0, Nat.zero_le _, by simpa [forcedFrom, hv] using .known hv⟩
    case neg =>
      by_cases ho : a.OneWay s
      case pos =>
        obtain ⟨state, ⟨target, label⟩, hs, hstop, ht, hl⟩ := ho
        have hlt := remaining_cons_lt (mem_stateIds hs) hv
        have hr' : remaining a.stateIds (s :: visited) ≤ n := by omega
        obtain ⟨moves, hle, h⟩ := hi hr' (s := target)
        refine ⟨moves + 1, by omega, ?_⟩
        rcases hl with hl | ⟨type, hl⟩ <;> cases hl
        · simpa [forcedFrom, hv, hs, hstop, ht] using h.free hv hs hstop ht
        · simpa [forcedFrom, hv, hs, hstop, ht] using h.atom hv hs hstop ht
      case neg => exact ⟨0, Nat.zero_le _, forcedFrom_eq_nil ho ▸ .ends hv ho⟩

-- The search ends by itself, after at most as many moves as there are states.
theorem search_finishes (a : Automaton) (s : StateId) :
    ∃ moves ≤ a.states.length, ∀ n F,
      a.Search [] s n F ↔ n = moves ∧ F = a.forcedFrom [] a.states.length s := by
  have hr : remaining a.stateIds [] ≤ a.states.length :=
    Nat.le_trans remaining_le_card (by simp [stateIds])
  obtain ⟨moves, hle, h⟩ := forcedFrom_search hr (s := s)
  refine ⟨moves, hle, fun n F => ⟨fun h' => h'.unique h, ?_⟩⟩
  rintro ⟨rfl, rfl⟩
  exact h

end Search

end Automaton

namespace FirstSets

-- A whole run of the exploration: what it has seen and what it has recorded once the agenda is
-- worked off.
inductive Explores (a : Automaton) (stop : Option StateId) :
    (seen : List StateId) → List Task → (seen' : List StateId) → List FirstSet → Prop
  | done {seen} : Explores a stop seen [] seen []
  | record {seen agenda seen' out set} : Explores a stop seen agenda seen' out →
    Explores a stop seen (.record set :: agenda) seen' (set :: out)
  | skip {seen agenda seen' out s path} : s ∈ seen ∨ a.state? s = none →
    Explores a stop seen agenda seen' out → Explores a stop seen (.visit s path :: agenda) seen' out
  | visit {seen agenda seen' out s path state} : s ∉ seen → a.state? s = some state →
    Explores a stop (s :: seen) (tasksOf a stop s state path ++ agenda) seen' out →
    Explores a stop seen (.visit s path :: agenda) seen' out

-- What there is to do comes from states that are reached without a token.
inductive Founded (a : Automaton) (start : StateId) : Task → Prop
  | visit {path s} : a.Begins start path s → Founded a start (.visit s path)
  | ends {path s} : a.Begins start path s → a.Stops s →
    Founded a start (.record ⟨.singleton TokenType.epsilon, path, []⟩)
  | meets {path s t symbols} : a.Begins start path s → a.Leaves s t →
    a.symbols? t = some symbols → Founded a start (.record ⟨symbols, path, a.forcedAfter t⟩)

-- The state has been seen or will be, unless it does not exist.
def Reached (a : Automaton) (seen : List StateId) (agenda : List Task) (s : StateId) : Prop :=
  s ∈ seen ∨ (∃ path, .visit s path ∈ agenda) ∨ a.state? s = none

def Known (out : List FirstSet) (agenda : List Task) (set : FirstSet) : Prop :=
  set ∈ out ∨ .record set ∈ agenda

-- The states that were seen are worked off, up to what is on the agenda. `out` are the sets that
-- were recorded.
structure Explored (a : Automaton) (start : StateId) (seen : List StateId) (agenda : List Task)
    (out : List FirstSet) : Prop where
  root  : Reached a seen agenda start
  free  : ∀ {s t}, s ∈ seen → a.Leaves s t → t.IsFree → Reached a seen agenda t.target
  call  : ∀ {s target r follow}, s ∈ seen → a.Leaves s ⟨target, .rule r follow⟩ →
    Reached a seen agenda target
  stops : ∀ {s}, s ∈ seen → a.Stops s →
    ∃ set, Known out agenda set ∧ set.symbols = .singleton TokenType.epsilon
  meets : ∀ {s t symbols}, s ∈ seen → a.Leaves s t → a.symbols? t = some symbols →
    symbols.isEmpty = false →
    ∃ set, Known out agenda set ∧ set.symbols = symbols ∧ set.following = a.forcedAfter t

-- A rule on the path of a visit has been entered.
def Entered (a : Automaton) (seen : List StateId) (agenda : List Task) : Prop :=
  ∀ {s path r target}, .visit s path ∈ agenda → r ∈ path → a.ruleStart? r = some target →
    target ∈ seen ∨ target = s

variable {a : Automaton} {stop : Option StateId} {start s : StateId} {seen seen' : List StateId}
  {agenda : List Task} {path rules : List RuleIndex} {t : Transition} {set : FirstSet} {n : Nat}
  {symbols : IntervalSet} {out new : List FirstSet} {state : State}

section Bound

variable {next : List StateId → List Task → List FirstSet}

theorem explores_drain
    (h : ∀ s agenda, s ∉ seen → (a.state? s).isSome →
      ∃ seen', Explores a stop (s :: seen) agenda seen' (next (s :: seen) agenda)) :
    ∃ seen', Explores a stop seen agenda seen' (drain a stop next seen agenda) := by
  induction agenda
  case nil => exact ⟨seen, .done⟩
  case cons task agenda hi =>
    obtain ⟨seen', hx⟩ := hi
    cases task
    case record set => exact ⟨seen', hx.record⟩
    case visit s path =>
      unfold drain
      split
      case isTrue hs => exact ⟨seen', hx.skip (.inl hs)⟩
      case isFalse hs =>
        split
        case h_1 hn => exact ⟨seen', hx.skip (.inr hn)⟩
        case h_2 state hs' =>
          obtain ⟨seen', hx⟩ := h s (tasksOf a stop s state path ++ agenda) hs (by simp [hs'])
          exact ⟨seen', hx.visit hs hs'⟩

theorem explores_explore (hr : remaining a.stateIds seen ≤ n) :
    ∃ seen', Explores a stop seen agenda seen' (explore a stop n seen agenda) := by
  induction n generalizing seen agenda
  case zero =>
    refine explores_drain fun s _ hs he => ?_
    have ⟨_, he⟩ := Option.isSome_iff_exists.mp he
    have := remaining_cons_lt (Automaton.mem_stateIds he) hs
    omega
  case succ n hi =>
    refine explores_drain fun s _ hs he => ?_
    have ⟨_, he⟩ := Option.isSome_iff_exists.mp he
    have := remaining_cons_lt (Automaton.mem_stateIds he) hs
    exact hi (by omega)

end Bound

section Finish

variable {seen'' : List StateId} {out' : List FirstSet}

-- The exploration has one result.
theorem Explores.unique (h : Explores a stop seen agenda seen' out)
    (h' : Explores a stop seen agenda seen'' out') : seen'' = seen' ∧ out' = out := by
  induction h generalizing seen'' out'
  case done =>
    cases h'
    exact ⟨rfl, rfl⟩
  case record hi =>
    cases h'
    case record h' => exact (hi h').imp_right (congrArg _)
  case skip hs _ hi =>
    rcases h' with _ | _ | ⟨_, h'⟩ | ⟨hn, hs', _⟩
    · exact hi h'
    · simp [hn, hs'] at hs
  case visit hn hs _ hi =>
    rcases h' with _ | _ | ⟨hs', _⟩ | ⟨_, hs', h'⟩
    · simp [hn, hs] at hs'
    · cases hs.symm.trans hs'
      exact hi h'

-- No state is seen twice, and none that does not exist.
theorem Explores.seen_nodup (h : Explores a stop seen agenda seen' out)
    (hn : seen.Nodup ∧ seen.toFinset ⊆ a.stateIds) :
    seen'.Nodup ∧ seen'.toFinset ⊆ a.stateIds := by
  induction h
  case done           => exact hn
  case record hi      => exact hi hn
  case skip hi        => exact hi hn
  case visit hs he _ hi =>
    refine hi ⟨List.nodup_cons.mpr ⟨hs, hn.left⟩, ?_⟩
    rw [List.toFinset_cons]
    exact Finset.insert_subset (Automaton.mem_stateIds he) hn.right

end Finish

section Sound

theorem founded_taskOf {task : Task} (hb : a.Begins start path s) (hl : a.Leaves s t)
    (h : taskOf a path t = some task) : Founded a start task := by
  have hm {symbols} (hs : a.symbols? t = some symbols) :=
    Founded.meets hb hl hs
  unfold taskOf at h
  split at h
  case h_1 he =>
    cases h
    exact .visit (hb.free hl (.inl he))
  case h_2 id he =>
    cases h
    exact .visit (hb.free hl (.inr ⟨id, he⟩))
  case h_3 index follow he =>
    split at h <;> try contradiction
    cases h
    obtain ⟨target, label⟩ := t
    subst he
    exact .visit (hb.call hl)
  case h_4 he =>
    cases h
    have hs : a.symbols? t = some a.userTypes := by simp [Automaton.symbols?, he]
    simpa [Automaton.forcedAfter, he] using hm hs
  all_goals
    rename_i he
    split at h <;> try contradiction
    split at h <;> try contradiction
    rename_i hs _
    cases h
    exact hm (by simpa [Automaton.symbols?, he] using hs)

theorem founded_tasksOf {task : Task} (hstop : ∀ s, some s = stop → a.Stops s)
    (hb : a.Begins start path s) (hs : a.state? s = some state)
    (hm : task ∈ tasksOf a stop s state path) : Founded a start task := by
  unfold tasksOf at hm
  split at hm
  case isTrue h =>
    have hst : a.Stops s := h.elim (hstop s) (⟨state, hs, ·⟩)
    cases List.mem_singleton.mp hm
    exact .ends hb hst
  case isFalse h =>
    have ⟨t, ht, he⟩ := List.mem_filterMap.mp hm
    exact founded_taskOf hb ⟨state, hs, by simp_all, ht⟩ he

theorem Explores.founded (hstop : ∀ s, some s = stop → a.Stops s)
    (hx : Explores a stop seen agenda seen' out) (ha : ∀ task ∈ agenda, Founded a start task) :
    ∀ set ∈ out, Founded a start (.record set) := by
  induction hx
  case done => simp
  case record hi =>
    have ⟨ht, ha⟩ := List.forall_mem_cons.mp ha
    exact List.forall_mem_cons.mpr ⟨ht, hi ha⟩
  case skip hi => exact hi (List.forall_mem_cons.mp ha).right
  case visit hs _ hi =>
    have ⟨ht, ha⟩ := List.forall_mem_cons.mp ha
    cases ht
    case visit hb =>
      exact hi (List.forall_mem_append.mpr ⟨fun _ => founded_tasksOf hstop hb hs, ha⟩)

end Sound

section Complete

theorem Explored.mono {agenda' : List Task} {out' : List FirstSet}
    (h : Explored a start seen agenda out)
    (hr : ∀ s, Reached a seen agenda s → Reached a seen agenda' s)
    (hk : ∀ set, Known out agenda set → Known out' agenda' set) :
    Explored a start seen agenda' out' where
  root           := hr _ h.root
  free hs hl hf  := hr _ (h.free hs hl hf)
  call hs hl     := hr _ (h.call hs hl)
  stops hs ht    := (h.stops hs ht).imp fun _ => .imp_left (hk _)
  meets hs hl hm hn := (h.meets hs hl hm hn).imp fun _ => .imp_left (hk _)

theorem Explored.record (h : Explored a start seen (.record set :: agenda) out) :
    Explored a start seen agenda (out ++ [set]) :=
  h.mono (fun _ => by simp [Reached]) fun _ => by
    simp only [Known, List.mem_cons, List.mem_append, Task.record.injEq]
    tauto

theorem Explored.skip (h : Explored a start seen (.visit s path :: agenda) out)
    (hs : s ∈ seen ∨ a.state? s = none) : Explored a start seen agenda out := by
  refine h.mono (fun u => ?_) fun _ => by simp [Known]
  rintro (hu | ⟨_, hm⟩ | hu)
  · exact .inl hu
  · rcases List.mem_cons.mp hm with he | hm
    · cases he
      exact hs.imp_right .inr
    · exact .inr (.inl ⟨_, hm⟩)
  · exact .inr (.inr hu)

theorem taskOf_free (h : t.IsFree) : taskOf a path t = some (.visit t.target path) := by
  rcases h with h | ⟨_, h⟩ <;> simp [taskOf, h]

theorem taskOf_meets (h : a.symbols? t = some symbols) (hn : symbols.isEmpty = false) :
    taskOf a path t = some (.record ⟨symbols, path, a.forcedAfter t⟩) := by
  obtain ⟨target, label⟩ := t
  cases label <;> simp_all [Automaton.symbols?, taskOf, Automaton.forcedAfter, Label.matchSet?]

theorem mem_tasksOf {task : Task} (hstop : ∀ s, some s = stop → a.Stops s)
    (hs : a.state? s = some state) (hl : a.Leaves s t) (ht : taskOf a path t = some task) :
    task ∈ tasksOf a stop s state path := by
  have ⟨state', hs', hn, hm⟩ := hl
  have he : state' = state := Option.some.inj (hs'.symm.trans hs)
  subst he
  have hne : ¬some s = stop := fun h => hl.not_stops (hstop s h)
  rw [tasksOf, if_neg (by simp [hn, hne])]
  exact List.mem_filterMap.mpr ⟨t, hm, ht⟩

-- A call that is left out aims at a rule on the path, which has been entered.
theorem Explored.visit (hw : a.WellFormed) (hstop : ∀ s, some s = stop → a.Stops s)
    (h : Explored a start seen (.visit s path :: agenda) out)
    (he : Entered a seen (.visit s path :: agenda)) (hs : a.state? s = some state) :
    Explored a start (s :: seen) (tasksOf a stop s state path ++ agenda) out := by
  have hr {u} : Reached a seen (.visit s path :: agenda) u →
      Reached a (s :: seen) (tasksOf a stop s state path ++ agenda) u := by
    simp only [Reached, List.mem_cons, List.mem_append, Task.visit.injEq]
    grind
  have hk {set} : Known out (.visit s path :: agenda) set →
      Known out (tasksOf a stop s state path ++ agenda) set := by
    simp only [Known, List.mem_cons, List.mem_append, reduceCtorEq]
    tauto
  have htask {t task} (hl : a.Leaves s t) (ht : taskOf a path t = some task) :
      task ∈ tasksOf a stop s state path ++ agenda :=
    List.mem_append_left _ (mem_tasksOf hstop hs hl ht)
  constructor
  case root => exact hr h.root
  case free =>
    intro u t hu hl hf
    rcases List.mem_cons.mp hu with rfl | hu
    · exact .inr (.inl ⟨path, htask hl (taskOf_free hf)⟩)
    · exact hr (h.free hu hl hf)
  case call =>
    intro u target r follow hu hl
    rcases List.mem_cons.mp hu with rfl | hu
    · by_cases hp : r ∈ path
      · have := he (List.mem_cons_self ..) hp (hw.ruleStart?_eq hl)
        exact .inl (List.mem_cons.mpr this.symm)
      · exact .inr (.inl ⟨path ++ [r], htask hl (by simp [taskOf, hp])⟩)
    · exact hr (h.call hu hl)
  case stops =>
    intro u hu ht
    rcases List.mem_cons.mp hu with rfl | hu
    · have ⟨state', hs', hstop⟩ := ht
      have he : state' = state := Option.some.inj (hs'.symm.trans hs)
      subst he
      exact ⟨⟨.singleton TokenType.epsilon, path, []⟩, .inr (by simp [tasksOf, hstop]), rfl⟩
    · exact (h.stops hu ht).imp fun _ => .imp_left hk
  case meets =>
    intro u t symbols hu hl hm hn
    rcases List.mem_cons.mp hu with rfl | hu
    · exact ⟨_, .inr (htask hl (taskOf_meets hm hn)), rfl, rfl⟩
    · exact (h.meets hu hl hm hn).imp fun _ => .imp_left hk

theorem path_of_mem_tasksOf {u : StateId} {path' : List RuleIndex}
    (hw : a.WellFormed) (hs : a.state? s = some state)
    (hm : .visit u path' ∈ tasksOf a stop s state path) :
    path' = path ∨ ∃ r ∉ path, path' = path ++ [r] ∧ a.ruleStart? r = some u := by
  unfold tasksOf at hm
  split at hm
  case isTrue => simp at hm
  case isFalse =>
    obtain ⟨⟨target, label⟩, ht, he⟩ := List.mem_filterMap.mp hm
    unfold taskOf at he
    cases label <;> simp only [Label.matchSet?] at he
    case epsilon   => simp_all
    case predicate => simp_all
    case rule r follow =>
      split at he <;> try contradiction
      rename_i hr
      cases he
      exact .inr ⟨r, hr, rfl, hw.call hs ht⟩
    case wildcard => simp at he
    all_goals split at he <;> simp at he

theorem Entered.visit (hw : a.WellFormed) (he : Entered a seen (.visit s path :: agenda))
    (hs : a.state? s = some state) :
    Entered a (s :: seen) (tasksOf a stop s state path ++ agenda) := by
  intro u path' r target hm hr ht
  rcases List.mem_append.mp hm with hm | hm
  · have hp (hr : r ∈ path) : target ∈ s :: seen :=
      List.mem_cons.mpr (he (List.mem_cons_self ..) hr ht).symm
    rcases path_of_mem_tasksOf hw hs hm with rfl | ⟨r', _, rfl, hu⟩
    · exact .inl (hp hr)
    · rcases List.mem_append.mp hr with hr | hr
      · exact .inl (hp hr)
      · cases List.mem_singleton.mp hr
        exact .inr (Option.some.inj (ht.symm.trans hu))
  · exact (he (List.mem_cons_of_mem _ hm) hr ht).imp_left (List.mem_cons_of_mem _)

theorem Entered.tail {task : Task} (he : Entered a seen (task :: agenda)) : Entered a seen agenda :=
  fun hm => he (List.mem_cons_of_mem _ hm)

theorem Explores.explored (hw : a.WellFormed) (hstop : ∀ s, some s = stop → a.Stops s)
    (hx : Explores a stop seen agenda seen' new) (h : Explored a start seen agenda out)
    (he : Entered a seen agenda) : Explored a start seen' [] (out ++ new) := by
  induction hx generalizing out
  case done => simpa using h
  case record hi => simpa using hi h.record he.tail
  case skip hs _ hi => exact hi (h.skip hs) he.tail
  case visit hs _ hi => exact hi (h.visit hw hstop he hs) (he.visit hw hs)

theorem Explored.sees (h : Explored a start seen [] out) (hb : a.Begins start rules s) :
    s ∈ seen ∨ a.state? s = none := by
  have hr {u} (hu : Reached a seen [] u) : u ∈ seen ∨ a.state? u = none := by
    simpa [Reached] using hu
  have hl {u t} (hu : u ∈ seen ∨ a.state? u = none) (hl : a.Leaves u t) : u ∈ seen := by
    have ⟨_, hs, _⟩ := hl
    exact hu.resolve_right (by simp [hs])
  induction hb
  case start => exact hr h.root
  case free hl' hf hi => exact hr (h.free (hl hi hl') hl' hf)
  case call hl' hi => exact hr (h.call (hl hi hl') hl')

end Complete

section Compute

theorem explores_compute (a : Automaton) (start : StateId) :
    ∃ seen, Explores a (do a.ruleStop? (← a.state? start).rule) [] [.visit start []] seen
      (compute a start).sets :=
  explores_explore (Nat.le_trans remaining_le_card (by simp [Automaton.stateIds]))

-- The exploration ends by itself, after at most as many visits as there are states.
theorem exploration_finishes (a : Automaton) (start : StateId) :
    ∃ seen : List StateId, seen.Nodup ∧ seen.length ≤ a.states.length ∧ ∀ seen' out,
      Explores a (do a.ruleStop? (← a.state? start).rule) [] [.visit start []] seen' out ↔
        seen' = seen ∧ out = (compute a start).sets := by
  obtain ⟨seen, h⟩ := explores_compute a start
  have ⟨hn, hs⟩ := h.seen_nodup ⟨.nil, by simp⟩
  refine ⟨seen, hn, ?_, fun seen' out => ⟨h.unique, ?_⟩⟩
  · simpa [List.toFinset_card_of_nodup hn, Automaton.stateIds] using Finset.card_le_card hs
  · rintro ⟨rfl, rfl⟩
    exact h

variable (hw : a.WellFormed)

include hw

theorem stops_of_stop (hs : some s = (do a.ruleStop? (← a.state? start).rule)) : a.Stops s := by
  have ⟨_, _, hr⟩ := Option.bind_eq_some_iff.mp hs.symm
  have ⟨state, hs, _, hk⟩ := hw.stop hr
  exact ⟨state, hs, by simp [State.isStop, hk]⟩

theorem founded_compute (hm : set ∈ (compute a start).sets) : Founded a start (.record set) := by
  have ⟨_, hx⟩ := explores_compute a start
  refine hx.founded (fun _ => stops_of_stop hw) ?_ set hm
  exact List.forall_mem_singleton.mpr (.visit .start)

theorem Explores.explored_compute
    (hx : Explores a (do a.ruleStop? (← a.state? start).rule) [] [.visit start []] seen out) :
    Explored a start seen [] out := by
  have h : Explored a start [] [.visit start []] [] := by
    constructor <;> simp [Reached]
  have he : Entered a [] [.visit start []] := by
    intro s path r target hm hr
    cases List.mem_singleton.mp hm
    simp at hr
  exact hx.explored hw (fun _ => stops_of_stop hw) h he

theorem exists_explored (start : StateId) :
    ∃ seen, Explored a start seen [] (compute a start).sets :=
  have ⟨seen, hx⟩ := explores_compute a start
  ⟨seen, hx.explored_compute hw⟩

theorem exists_set_of_stops (hb : a.Begins start rules s) (hs : a.Stops s) :
    ∃ set ∈ (compute a start).sets, set.symbols = .singleton TokenType.epsilon := by
  have ⟨seen, h⟩ := exists_explored hw start
  have ⟨_, hs', _⟩ := hs
  have hm : s ∈ seen := (h.sees hb).resolve_right (by simp [hs'])
  simpa [Known] using h.stops hm hs

theorem exists_set_of_meets (hb : a.Begins start rules s) (hl : a.Leaves s t)
    (ht : a.symbols? t = some symbols) (hn : symbols.isEmpty = false) :
    ∃ set ∈ (compute a start).sets, set.symbols = symbols ∧ set.following = a.forcedAfter t := by
  have ⟨seen, h⟩ := exists_explored hw start
  have ⟨_, hs', _⟩ := hl
  have hm : s ∈ seen := (h.sees hb).resolve_right (by simp [hs'])
  simpa [Known] using h.meets hm hl ht hn

end Compute

section Combined

theorem mem_foldl_union {v : TokenType} (sets : List FirstSet) {s : IntervalSet}
    (hs : s.Canonical) :
    (sets.foldl (fun s set => s.union set.symbols) s).Canonical ∧
      (v ∈ sets.foldl (fun s set => s.union set.symbols) s ↔
        v ∈ s ∨ ∃ set ∈ sets, v ∈ set.symbols) := by
  induction sets generalizing s
  case nil => exact ⟨hs, by simp⟩
  case cons set sets hi =>
    have ⟨hc, hm⟩ := hi (hs.union (t := set.symbols))
    refine ⟨hc, hm.trans ?_⟩
    simp [hs.mem_union, or_assoc]

theorem combined_contains_iff {v : TokenType} :
    (compute a start).combined.contains v ↔ ∃ set ∈ (compute a start).sets, v ∈ set.symbols := by
  have ⟨hc, hm⟩ := mem_foldl_union (v := v) (compute a start).sets .empty
  refine hc.contains_iff.trans (hm.trans ?_)
  simp [IntervalSet.mem_def, IntervalSet.empty]

variable (hw : a.WellFormed)

include hw

theorem combined_contains_of_stops (hb : a.Begins start rules s) (hs : a.Stops s) :
    (compute a start).combined.contains TokenType.epsilon := by
  have ⟨set, hm, he⟩ := exists_set_of_stops hw hb hs
  exact combined_contains_iff.mpr ⟨set, hm, he ▸ IntervalSet.mem_singleton.mpr rfl⟩

theorem combined_contains_of_matches {type : TokenType} (hb : a.Begins start rules s)
    (hl : a.Leaves s t) (ht : a.Matches t type) : (compute a start).combined.contains type := by
  have ⟨symbols, hsym, hm⟩ := ht
  have ⟨set, hset, he, _⟩ := exists_set_of_meets hw hb hl hsym
    (IntervalSet.isEmpty_eq_false_of_mem hm)
  exact combined_contains_iff.mpr ⟨set, hset, he ▸ hm⟩

end Combined

end FirstSets
end Caret
