import Caret.Proofs.Completion.FirstSets
import Caret.Proofs.Interval.Complement

-- First sets hold what can come first and nothing else. Every end of a rule and every consuming
-- transition that can be reached without a token has an entry of its own, whose path names the
-- calls of a way to it.
namespace Caret

namespace Label

-- The token types that a label stands for.
def Admits (maxType type : TokenType) : Label → Prop
  | .atom type'   => type = type'
  | .set types    => type ∈ types
  | .notSet types => TokenType.firstUser ≤ type ∧ type ≤ maxType ∧ type ∉ types
  | .wildcard     => TokenType.firstUser ≤ type ∧ type ≤ maxType
  | _             => False

end Label

namespace Automaton

variable (a : Automaton)

-- The transition can be taken in a state, where it stands at that place.
def LeavesAt (s : StateId) (index : Nat) (t : Transition) : Prop :=
  ∃ state, a.state? s = some state ∧ state.isStop = false ∧ state.transitions[index]? = some t

-- The transition consumes a token of some type. A wildcard counts even if there are no types.
def Consumes (t : Transition) : Prop :=
  ∃ symbols ∈ a.symbols? t, t.label = .wildcard ∨ symbols.isEmpty = false

instance : DecidablePred a.Consumes :=
  fun t => inferInstanceAs (Decidable (∃ symbols ∈ a.symbols? t, _ ∨ _))

variable {a} {t : Transition} {type : TokenType}

theorem matches_iff_of_symbols? {symbols : IntervalSet} (h : a.symbols? t = some symbols) :
    a.Matches t type ↔ type ∈ symbols := by
  simp [Matches, h]

theorem matches_iff_admits (hc : t.label.Canonical) :
    a.Matches t type ↔ t.label.Admits a.maxType type := by
  obtain ⟨target, label⟩ := t
  cases label
  case atom   => exact (matches_iff_of_symbols? rfl).trans IntervalSet.mem_singleton
  case set    => exact matches_iff_of_symbols? rfl
  case notSet =>
    exact (matches_iff_of_symbols? rfl).trans (IntervalSet.Canonical.mem_complement hc)
  case wildcard => exact (matches_iff_of_symbols? rfl).trans IntervalSet.mem_ofRange
  -- The other labels consume no token.
  all_goals exact iff_of_false (fun ⟨_, h, _⟩ => Option.some_ne_none _ h.symm) not_false

end Automaton

namespace FirstSets

-- What an entry stands for: the end of a rule, or a transition by its place in its state.
inductive Origin
  | stop (state : StateId)
  | transition (state : StateId) (index : Nat)

def Origin.state : Origin → StateId
  | .stop s | .transition s _ => s

-- There is something to be recorded.
def Origin.Recorded (a : Automaton) : Origin → Prop
  | .stop s             => a.Stops s
  | .transition s index => ∃ t, a.LeavesAt s index t ∧ a.Consumes t

-- The entry that an origin has. Its path leads to the origin, and no call on it is made twice.
inductive Records (a : Automaton) (start : StateId) : Origin → FirstSet → Prop
  | stop {s path} : a.Begins start path s → path.Nodup → a.Stops s →
    Records a start (.stop s) ⟨.singleton TokenType.epsilon, path, []⟩
  | transition {s index t path symbols} : a.Begins start path s → path.Nodup →
    a.LeavesAt s index t → a.symbols? t = some symbols →
    Records a start (.transition s index) ⟨symbols, path, a.forcedAfter t⟩

-- The origins in a state, in the order of their entries.
def originsOf (a : Automaton) (s : StateId) : List Origin :=
  match a.state? s with
  | none       => []
  | some state =>
    if state.isStop then [.stop s] else
      (state.transitions.zipIdx.filter (a.Consumes ·.1)).map (.transition s ·.2)

def Task.set? : Task → Option FirstSet
  | .visit ..   => none
  | .record set => some set

-- What is to be visited can be reached by the calls on its path, none of which is made twice.
def Led (a : Automaton) (start : StateId) (agenda : List Task) : Prop :=
  ∀ {s path}, .visit s path ∈ agenda → a.Begins start path s ∧ path.Nodup

variable {a : Automaton} {stop : Option StateId} {start s : StateId} {seen seen' : List StateId}
  {agenda : List Task} {path : List RuleIndex} {t : Transition} {out : List FirstSet}
  {state : State} {o : Origin}

theorem Origin.Recorded.exists_state (h : o.Recorded a) :
    ∃ state, a.state? o.state = some state := by
  cases o
  case stop =>
    have ⟨state, hs, _⟩ := h
    exact ⟨state, hs⟩
  case transition =>
    have ⟨_, ⟨state, hs, _⟩, _⟩ := h
    exact ⟨state, hs⟩

theorem originsOf_of_stop (hs : a.state? s = some state) (h : state.isStop) :
    originsOf a s = [.stop s] := by
  simp [originsOf, hs, h]

theorem originsOf_of_not_stop (hs : a.state? s = some state) (h : state.isStop = false) :
    originsOf a s = (state.transitions.zipIdx.filter (a.Consumes ·.1)).map (.transition s ·.2) := by
  simp [originsOf, hs, h]

theorem mem_originsOf : o ∈ originsOf a s ↔ o.state = s ∧ o.Recorded a := by
  constructor
  case mp =>
    intro hm
    cases hs : a.state? s
    case none => simp [originsOf, hs] at hm
    case some state =>
      by_cases h : state.isStop
      case pos =>
        rw [originsOf_of_stop hs h, List.mem_singleton] at hm
        subst hm
        exact ⟨rfl, state, hs, h⟩
      case neg =>
        have h : state.isStop = false := by simpa using h
        rw [originsOf_of_not_stop hs h] at hm
        obtain ⟨⟨t, index⟩, hf, rfl⟩ := List.mem_map.mp hm
        obtain ⟨ht, hc⟩ := List.mem_filter.mp hf
        have ht := List.mem_zipIdx_iff_getElem?.mp ht
        exact ⟨rfl, t, ⟨state, hs, h, ht⟩, of_decide_eq_true hc⟩
  case mpr =>
    rintro ⟨rfl, hr⟩
    cases o
    case stop s =>
      have ⟨state, hs, h⟩ := hr
      exact originsOf_of_stop hs h ▸ List.mem_singleton_self _
    case transition s index =>
      have ⟨t, ⟨state, hs, h, ht⟩, hc⟩ := hr
      have hm := List.mem_zipIdx_iff_getElem? (x := (t, index)) |>.mpr ht
      rw [Origin.state, originsOf_of_not_stop hs h]
      exact List.mem_map.mpr ⟨_, List.mem_filter.mpr ⟨hm, decide_eq_true hc⟩, rfl⟩

theorem nodup_originsOf : (originsOf a s).Nodup := by
  unfold originsOf
  split
  case h_1 => exact .nil
  case h_2 state _ =>
    split
    case isTrue => exact List.nodup_singleton _
    case isFalse =>
      have hk : ((state.transitions.zipIdx.filter (a.Consumes ·.1)).map Prod.snd).Nodup := by
        refine List.Nodup.sublist (List.filter_sublist.map Prod.snd) ?_
        simpa using List.nodup_range'
      have h := hk.map (f := Origin.transition s) fun _ _ h => (Origin.transition.inj h).right
      simpa [Function.comp_def] using h

theorem set?_taskOf_of_consumes (path : List RuleIndex) (h : a.Consumes t) :
    ∃ symbols, a.symbols? t = some symbols ∧
      (taskOf a path t).bind Task.set? = some ⟨symbols, path, a.forcedAfter t⟩ := by
  have ⟨symbols, hs, hc⟩ := h
  refine ⟨symbols, hs, ?_⟩
  rcases hc with hw | hn
  · simp_all [Automaton.symbols?, taskOf, Automaton.forcedAfter, Task.set?]
  · simp [taskOf_meets hs hn, Task.set?]

theorem consumes_of_taskOf {set : FirstSet} (h : taskOf a path t = some (.record set)) :
    a.Consumes t := by
  obtain ⟨target, label⟩ := t
  cases label <;> simp only [taskOf, Label.matchSet?] at h
  case wildcard => exact ⟨_, rfl, .inl rfl⟩
  case epsilon   => simp at h
  case predicate => simp at h
  case rule      => split at h <;> simp at h
  all_goals
    split at h <;> try contradiction
    rename_i hn
    exact ⟨_, rfl, .inr (by simpa using hn)⟩

theorem set?_taskOf_eq_none (h : ¬a.Consumes t) : (taskOf a path t).bind Task.set? = none := by
  rw [Option.bind_eq_none_iff]
  rintro (_ | set) ht
  case visit  => rfl
  case record => exact absurd (consumes_of_taskOf ht) h

theorem records_transitions {ts : List Transition} {n : Nat} (hb : a.Begins start path s)
    (hp : path.Nodup) (ht : ∀ k t, ts[k]? = some t → a.LeavesAt s (n + k) t) :
    List.Forall₂ (Records a start) (((ts.zipIdx n).filter (a.Consumes ·.1)).map (.transition s ·.2))
      ((ts.filterMap (taskOf a path)).filterMap Task.set?) := by
  rw [List.filterMap_filterMap]
  let f := fun t => (taskOf a path t).bind Task.set?
  induction ts generalizing n
  case nil => exact .nil
  case cons t ts hi =>
    have hrest := hi fun k t hk => Nat.add_right_comm n k 1 ▸ ht (k + 1) t hk
    rw [List.zipIdx_cons]
    by_cases hc : a.Consumes t
    case pos =>
      have ⟨symbols, hs, he⟩ := set?_taskOf_of_consumes path hc
      rw [List.filterMap_cons_some (f := f) he, List.filter_cons_of_pos (by simpa using hc)]
      exact .cons (.transition hb hp (ht 0 t rfl) hs) hrest
    case neg =>
      rw [List.filterMap_cons_none (f := f) (set?_taskOf_eq_none hc),
        List.filter_cons_of_neg (by simpa using hc)]
      exact hrest

theorem records_tasksOf (hstop : ∀ s, some s = stop → a.Stops s) (hb : a.Begins start path s)
    (hp : path.Nodup) (hs : a.state? s = some state) :
    List.Forall₂ (Records a start) (originsOf a s)
      ((tasksOf a stop s state path).filterMap Task.set?) := by
  have hiff : (some s = stop ∨ state.isStop) ↔ state.isStop := by
    refine or_iff_right_of_imp fun h => ?_
    have ⟨state', hs', h⟩ := hstop s h
    cases hs.symm.trans hs'
    exact h
  simp only [originsOf, tasksOf, hs, hiff]
  split
  case isTrue h => exact .cons (.stop hb hp ⟨state, hs, h⟩) .nil
  case isFalse h =>
    refine records_transitions hb hp fun k t ht => ⟨state, hs, by simpa using h, ?_⟩
    rw [Nat.zero_add, ht]

theorem Led.visit (hw : a.WellFormed) (hstop : ∀ s, some s = stop → a.Stops s)
    (h : Led a start (.visit s path :: agenda)) (hs : a.state? s = some state) :
    Led a start (tasksOf a stop s state path ++ agenda) := by
  have ⟨hb, hp⟩ := h (List.mem_cons_self ..)
  intro u path' hm
  rcases List.mem_append.mp hm with hm | hm
  · constructor
    case left =>
      cases founded_tasksOf hstop hb hs hm
      case visit hb' => exact hb'
    case right =>
      rcases path_of_mem_tasksOf hw hs hm with rfl | ⟨r, hr, rfl, _⟩
      · exact hp
      · exact List.nodup_append.mpr ⟨hp, List.nodup_singleton r, by grind⟩
  · exact h (List.mem_cons_of_mem _ hm)

theorem Explores.nodup (hx : Explores a stop seen agenda seen' out) (h : seen.Nodup) :
    seen'.Nodup := by
  induction hx
  case done => exact h
  case record hi => exact hi h
  case skip hi => exact hi h
  case visit hn _ _ hi => exact hi (h.cons hn)

-- The entries of a run are those on the agenda and those of the states that it sees. The order is
-- another one, since what a state leads to comes before the rest of the agenda.
theorem Explores.origins (hw : a.WellFormed) (hstop : ∀ s, some s = stop → a.Stops s)
    (hx : Explores a stop seen agenda seen' out) {pending : List Origin} (hl : Led a start agenda)
    (hp : List.Forall₂ (Records a start) pending (agenda.filterMap Task.set?)) :
    ∃ new origins, seen' = new ++ seen ∧ (∀ s ∈ new, ∃ rules, a.Begins start rules s) ∧
      origins.Perm (pending ++ new.flatMap (originsOf a)) ∧
      List.Forall₂ (Records a start) origins out := by
  induction hx generalizing pending
  case done =>
    cases hp
    exact ⟨[], [], rfl, by simp, by simp, .nil⟩
  case record hi =>
    cases hp
    case cons o pending ho hp =>
      have ⟨new, origins, hs, hb, hperm, hr⟩ := hi (fun hm => hl (List.mem_cons_of_mem _ hm)) hp
      exact ⟨new, o :: origins, hs, hb, hperm.cons o, .cons ho hr⟩
  case skip hi => exact hi (fun hm => hl (List.mem_cons_of_mem _ hm)) hp
  case visit agenda _ _ s path state hn hs _ hi =>
    have ⟨hb, hnd⟩ := hl (List.mem_cons_self ..)
    have hp' : List.Forall₂ (Records a start) (originsOf a s ++ pending)
        ((tasksOf a stop s state path ++ agenda).filterMap Task.set?) := by
      rw [List.filterMap_append]
      exact List.rel_append (records_tasksOf hstop hb hnd hs) hp
    obtain ⟨new, origins, hs, hb', hperm, hr⟩ := hi (hl.visit hw hstop hs) hp'
    refine ⟨new ++ [s], origins, by simp [hs], ?_, hperm.trans ?_, hr⟩
    · exact List.forall_mem_append.mpr ⟨hb', List.forall_mem_singleton.mpr ⟨path, hb⟩⟩
    · have h := @List.perm_append_comm _ (originsOf a s) (pending ++ new.flatMap (originsOf a))
      simpa using h

variable (a start) in
theorem exists_origins (hw : a.WellFormed) : ∃ origins : List Origin, origins.Nodup ∧
    (∀ o, o ∈ origins ↔ (∃ rules, a.Begins start rules o.state) ∧ o.Recorded a) ∧
    List.Forall₂ (Records a start) origins (compute a start).sets := by
  have ⟨seen, hx⟩ := explores_compute a start
  have hl : Led a start [.visit start []] := by
    intro s path hm
    cases List.mem_singleton.mp hm
    exact ⟨.start, .nil⟩
  have ⟨new, origins, hs, hb, hperm, hr⟩ := hx.origins hw (fun _ => stops_of_stop hw) hl .nil
  rw [List.append_nil] at hs
  subst hs
  rw [List.nil_append] at hperm
  refine ⟨origins, hperm.nodup_iff.mpr ?_, fun o => ?_, hr⟩
  · refine List.nodup_flatMap.mpr ⟨fun _ _ => nodup_originsOf, ?_⟩
    refine (hx.nodup .nil).imp fun hne o hm hm' => hne ?_
    exact (mem_originsOf.mp hm).left.symm.trans (mem_originsOf.mp hm').left
  · rw [hperm.mem_iff, List.mem_flatMap]
    constructor
    case mp =>
      rintro ⟨s, hs, hm⟩
      have ⟨he, hrec⟩ := mem_originsOf.mp hm
      exact ⟨he ▸ hb s hs, hrec⟩
    case mpr =>
      rintro ⟨⟨rules, hb⟩, hrec⟩
      have ⟨state, hs⟩ := hrec.exists_state
      have hm := ((hx.explored_compute hw).sees hb).resolve_right (by simp [hs])
      exact ⟨o.state, hm, mem_originsOf.mpr ⟨rfl, hrec⟩⟩

theorem combined_canonical : (compute a start).combined.Canonical :=
  (mem_foldl_union (v := 0) (compute a start).sets .empty).left

theorem combined_iff (hw : a.WellFormed) {type : TokenType} :
    (compute a start).combined.contains type ↔
      (∃ rules s t, a.Begins start rules s ∧ a.Leaves s t ∧ a.Matches t type) ∨
        type = TokenType.epsilon ∧ ∃ rules s, a.Begins start rules s ∧ a.Stops s := by
  constructor
  case mp =>
    intro h
    have ⟨set, hset, hm⟩ := combined_contains_iff.mp h
    cases founded_compute hw hset
    case ends path s hb hs => exact .inr ⟨IntervalSet.mem_singleton.mp hm, path, s, hb, hs⟩
    case meets path s t symbols hb hl hsym => exact .inl ⟨path, s, t, hb, hl, symbols, hsym, hm⟩
  case mpr =>
    rintro (⟨_, _, _, hb, hl, hm⟩ | ⟨rfl, _, _, hb, hs⟩)
    · exact combined_contains_of_matches hw hb hl hm
    · exact combined_contains_of_stops hw hb hs

-- A type can come first just if a transition that is reached without a token consumes it, and
-- `epsilon` stands for a rule that can end so. The entries are those of the origins that are
-- reached, one for each, and together they hold what can come first.
theorem compute_exact (hb : a.Built) (start : StateId) :
    (∀ type, (compute a start).combined.contains type ↔
      (∃ rules s t, a.Begins start rules s ∧ a.Leaves s t ∧ a.Matches t type) ∨
        type = TokenType.epsilon ∧ ∃ rules s, a.Begins start rules s ∧ a.Stops s) ∧
    (∀ t type, t.label.Canonical → (a.Matches t type ↔ t.label.Admits a.maxType type)) ∧
    (compute a start).combined.Canonical ∧
    (∀ type, (compute a start).combined.contains type ↔
      ∃ set ∈ (compute a start).sets, type ∈ set.symbols) ∧
    ∃ origins : List Origin, origins.Nodup ∧
      (∀ o, o ∈ origins ↔ (∃ rules, a.Begins start rules o.state) ∧ o.Recorded a) ∧
      List.Forall₂ (Records a start) origins (compute a start).sets :=
  ⟨fun _ => combined_iff hb.wellFormed, fun _ _ => Automaton.matches_iff_admits,
    combined_canonical, fun _ => combined_contains_iff, exists_origins a start hb.wellFormed⟩

-- A sum is a term, behind another sum or not; a term is a name, any other token, or nothing.
def sums : Automaton where
  id         := ⟨0⟩
  states     := [
    ⟨0, .ruleStart, 0, [⟨0, .rule 0 4⟩, ⟨2, .rule 1 1⟩]⟩,
    ⟨1, .ruleStop, 0, []⟩,
    ⟨2, .ruleStart, 1, [⟨3, .atom 1⟩, ⟨3, .notSet (.singleton 1)⟩, ⟨3, .epsilon⟩]⟩,
    ⟨3, .ruleStop, 1, []⟩,
    ⟨4, .basic, 0, [⟨2, .rule 1 1⟩]⟩
  ]
  rules      := [⟨"sum", 0, 1⟩, ⟨"term", 2, 3⟩]
  vocabulary := .empty
  maxType    := 3

theorem sums_built : sums.Built := by
  refine ⟨[.withMaxType 3, .addRule "sum", .addRule "term", .addState 0 .basic, .addCall 0 0 4,
    .addCall 0 1 1, .addTransition 2 3 (.atom 1), .addTransition 2 3 (.notSet (.singleton 1)),
    .addTransition 2 3 .epsilon, .addCall 4 1 1], ⟨0⟩, ?_, rfl⟩
  have hone : (IntervalSet.singleton 1).Canonical := .insertRange .empty 1 1
  simpa [BuilderCall.Canonical, Label.Canonical] using hone

theorem compute_exact_sums :
    (compute sums 0).sets.map FirstSet.path = [[1], [1], [1]] ∧
      (∃ rules s t, sums.Begins 0 rules s ∧ sums.Leaves s t ∧ sums.Matches t 3) ∧
      ∃ origins : List Origin, origins.Nodup ∧ origins.length = 3 ∧
        List.Forall₂ (Records sums 0) origins (compute sums 0).sets := by
  have ⟨hc, _, _, _, origins, hn, _, hr⟩ := compute_exact sums_built 0
  have hp : (compute sums 0).sets.map FirstSet.path = [[1], [1], [1]] := by decide +kernel
  have hl : (compute sums 0).sets.length = 3 := by simpa using congrArg List.length hp
  refine ⟨hp, ?_, origins, hn, hr.length_eq.trans hl, hr⟩
  exact ((hc 3).mp (by decide +kernel)).resolve_right fun h => absurd h.left (by decide)

end FirstSets
end Caret
