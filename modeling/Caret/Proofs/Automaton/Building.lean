import Caret.Proofs.Automaton.Built
import Caret.Proofs.Interval.Members
import Mathlib.Data.List.Forall2

-- What becomes of a script of builder calls. It is accepted just if all its references hold in the
-- end; then the automaton is what the calls have asked for, and otherwise the first reference that
-- does not hold is reported.
namespace Caret

namespace BuilderCall

-- The transition that a call adds.
def arc? : BuilderCall → Option Arc
  | addTransition source target label => some ⟨source, some target, label⟩
  | addCall source rule follow        => some ⟨source, none, .rule rule follow⟩
  | _                                 => none

def vocabulary? : BuilderCall → Option Vocabulary
  | withVocabulary vocabulary => some vocabulary
  | _                         => none

def maxType? : BuilderCall → Option TokenType
  | withMaxType maxType => some maxType
  | _                   => none

-- The states that calls add, if there are already `rules` rules.
def addedStates (rules : Nat) : List BuilderCall → List (StateKind × RuleIndex)
  | []                        => []
  | addRule _ :: calls        =>
    (.ruleStart, rules) :: (.ruleStop, rules) :: addedStates (rules + 1) calls
  | addState rule kind :: calls => (kind, rule) :: addedStates rules calls
  | _ :: calls                => addedStates rules calls

-- The rules that calls add, if there are already `states` states.
def addedRules (states : Nat) : List BuilderCall → List Rule
  | []                    => []
  | addRule name :: calls => ⟨name, states, states + 1⟩ :: addedRules (states + 2) calls
  | addState .. :: calls  => addedRules (states + 1) calls
  | _ :: calls            => addedRules states calls

end BuilderCall

-- The end of the last interval is the largest member.
theorem IntervalSet.Canonical.le_last {s : IntervalSet} {i : Interval} (h : s.Canonical)
    (hi : s.intervals.getLast? = some i) : i.stop ∈ s ∧ ∀ v, v ∈ s → v ≤ i.stop := by
  obtain ⟨is⟩ := s
  obtain ⟨a, rfl⟩ := List.getLast?_eq_some_iff.mp hi
  have ⟨_, hlast, ha⟩ := canonical_append.mp h
  have ⟨hle, _⟩ := canonical_cons.mp hlast
  refine ⟨⟨i, by simp, hle, Int32.le_refl _⟩, ?_⟩
  rintro v ⟨j, hj, hv⟩
  rcases List.mem_append.mp hj with hj | hj
  · have hlt := ha j hj i (List.mem_singleton_self i)
    have hv := Interval.mem_iff_toInt.mp hv
    have hle := Int32.le_iff_toInt_le.mp hle
    rw [Int32.le_iff_toInt_le]
    omega
  · cases List.mem_singleton.mp hj
    exact hv.right

namespace Label

-- The label calls a rule.
def IsCall (label : Label) : Prop :=
  ∃ rule follow, label = .rule rule follow

-- The token types that stand in a label, also those that it excludes.
def Names (type : TokenType) : Label → Prop
  | .atom type'                => type = type'
  | .set types | .notSet types => type ∈ types
  | _                          => False

variable {label : Label} {type : TokenType}

theorem Canonical.largest?_eq_some (h : label.Canonical) (hl : label.largest? = some type) :
    label.Names type ∧ ∀ type', label.Names type' → type' ≤ type := by
  cases label <;> simp only [largest?, reduceCtorEq, Option.some_inj, Option.map_eq_some_iff] at hl
  case atom => exact ⟨hl.symm, fun type' hn => by simp [← hl, show type' = _ from hn]⟩
  all_goals
    obtain ⟨i, hi, rfl⟩ := hl
    exact IntervalSet.Canonical.le_last h hi

theorem exists_largest? (hn : label.Names type) : ∃ m, label.largest? = some m := by
  cases label <;> simp only [Names] at hn
  case atom => exact ⟨_, rfl⟩
  all_goals
    obtain ⟨i, hi, _⟩ := hn
    have hl := List.getLast?_eq_some_getLast (List.ne_nil_of_mem hi)
    exact ⟨_, congrArg (Option.map Interval.stop) hl⟩

end Label

namespace Builder

-- What calls add to a builder. Of several vocabularies or largest types the last one counts.
structure Records (b : Builder) (calls : List BuilderCall) (b' : Builder) : Prop where
  states     : b'.states = b.states ++ BuilderCall.addedStates b.rules.length calls
  rules      : b'.rules = b.rules ++ BuilderCall.addedRules b.states.length calls
  arcs       : b'.arcs = b.arcs ++ calls.filterMap BuilderCall.arc?
  vocabulary : b'.vocabulary = (calls.filterMap BuilderCall.vocabulary?).getLast?.getD b.vocabulary
  maxType    : b'.maxType = (calls.filterMap BuilderCall.maxType?).getLast?.or b.maxType

theorem records_run (b : Builder) (calls : List BuilderCall) : b.Records calls (b.run calls) := by
  induction calls generalizing b
  case nil => constructor <;> simp [run, BuilderCall.addedStates, BuilderCall.addedRules]
  case cons call calls hi =>
    have h := hi (b.after call)
    refine ⟨h.states.trans ?_, h.rules.trans ?_, h.arcs.trans ?_, h.vocabulary.trans ?_,
      h.maxType.trans ?_⟩
    all_goals
      cases call <;> simp [after, named, withVocabulary, withMaxType, addRule, addState,
        addTransition, addCall, BuilderCall.addedStates, BuilderCall.addedRules, BuilderCall.arc?,
        BuilderCall.vocabulary?, BuilderCall.maxType?, List.filterMap_cons, List.getLast?_cons]

section References

variable (b : Builder)

-- All references of an arc hold, and it stands for a transition.
inductive Resolves : Arc → Transition → Prop
  | step {source target : StateId} {label : Label} :
    source < b.states.length → ¬label.IsCall → target < b.states.length →
    Resolves ⟨source, some target, label⟩ ⟨target, label⟩
  | call {source follow : StateId} {target : Option StateId} {index : RuleIndex} {rule : Rule} :
    source < b.states.length → b.rules[index]? = some rule → follow < b.states.length →
    (∀ t, target = some t → t = rule.start) →
    Resolves ⟨source, target, .rule index follow⟩ ⟨rule.start, .rule index follow⟩

-- The first reference of an arc that does not hold.
inductive Offends : Arc → BuildError → Prop
  | source {arc : Arc} : b.states.length ≤ arc.source → Offends arc (.unknownState arc.source)
  | target {source target : StateId} {label : Label} :
    source < b.states.length → ¬label.IsCall → b.states.length ≤ target →
    Offends ⟨source, some target, label⟩ (.unknownState target)
  | rule {source follow : StateId} {target : Option StateId} {index : RuleIndex} :
    source < b.states.length → b.rules.length ≤ index →
    Offends ⟨source, target, .rule index follow⟩ (.unknownRule index)
  | follow {source follow : StateId} {target : Option StateId} {index : RuleIndex} :
    source < b.states.length → index < b.rules.length → b.states.length ≤ follow →
    Offends ⟨source, target, .rule index follow⟩ (.unknownState follow)
  | start {source target follow : StateId} {index : RuleIndex} {rule : Rule} :
    source < b.states.length → b.rules[index]? = some rule → follow < b.states.length →
    target ≠ rule.start →
    Offends ⟨source, some target, .rule index follow⟩ (.notARuleStart source target)

end References

-- Only a call of a rule leaves its target open.
def Aimed (arc : Arc) : Prop :=
  arc.target = none → arc.label.IsCall

variable {b : Builder} {arc : Arc} {t : Transition} {e : BuildError}

theorem checkState_ok {s : StateId} (h : s < b.states.length) : b.checkState s = .ok () :=
  if_pos h

theorem checkState_error {s : StateId} (h : b.states.length ≤ s) :
    b.checkState s = .error (.unknownState s) :=
  if_neg (Nat.not_lt.mpr h)

theorem Resolves.resolve_eq (hp : b.Paired) (h : b.Resolves arc t) : b.resolve arc = .ok t := by
  cases h
  case step source target label hs hl ht =>
    cases label
    case rule index follow => exact absurd ⟨_, _, rfl⟩ hl
    all_goals
      simp [resolve, checkState_ok hs, checkState_ok ht, bind, Except.bind, pure, Except.pure]
  case call source follow target index rule hs hr hf ht =>
    have hstart : rule.start < b.states.length :=
      (List.getElem?_eq_some_iff.mp (hp index rule hr).start).choose
    have he : target.getD rule.start = rule.start := by
      cases target
      case none   => rfl
      case some t => exact ht t rfl
    simp [resolve, checkState_ok hs, hr, checkState_ok hf, he, checkState_ok hstart, bind,
      Except.bind, pure, Except.pure]

theorem Offends.resolve_eq (h : b.Offends arc e) : b.resolve arc = .error e := by
  cases h
  case source hs => simp [resolve, checkState_error hs, bind, Except.bind]
  case target source target label hs hl ht =>
    cases label
    case rule index follow => exact absurd ⟨_, _, rfl⟩ hl
    all_goals simp [resolve, checkState_ok hs, checkState_error ht, bind, Except.bind]
  case rule hs hr =>
    simp [resolve, checkState_ok hs, List.getElem?_eq_none hr, bind, Except.bind]
  case follow hs hr hf =>
    simp [resolve, checkState_ok hs, List.getElem?_eq_getElem hr, checkState_error hf, bind,
      Except.bind]
  case start hs hr hf ht =>
    simp [resolve, checkState_ok hs, hr, checkState_ok hf, ht, bind, Except.bind]

-- One of the two always holds.
theorem resolves_or_offends (h : Aimed arc) : (∃ t, b.Resolves arc t) ∨ ∃ e, b.Offends arc e := by
  obtain ⟨source, target, label⟩ := arc
  rcases Nat.lt_or_ge source b.states.length with hs | hs
  case inr => exact .inr ⟨_, .source hs⟩
  case inl =>
    by_cases hl : label.IsCall
    case pos =>
      obtain ⟨index, follow, rfl⟩ := hl
      rcases Nat.lt_or_ge index b.rules.length with hr | hr
      case inr => exact .inr ⟨_, .rule hs hr⟩
      case inl =>
        rcases Nat.lt_or_ge follow b.states.length with hf | hf
        case inr => exact .inr ⟨_, .follow hs hr hf⟩
        case inl =>
          by_cases ht : ∀ t, target = some t → t = b.rules[index].start
          case pos => exact .inl ⟨_, .call hs (List.getElem?_eq_getElem hr) hf ht⟩
          case neg =>
            push Not at ht
            obtain ⟨t, rfl, ht⟩ := ht
            exact .inr ⟨_, .start hs (List.getElem?_eq_getElem hr) hf ht⟩
    case neg =>
      cases target
      case none => exact absurd (h rfl) hl
      case some target =>
        rcases Nat.lt_or_ge target b.states.length with ht | ht
        · exact .inl ⟨_, .step hs hl ht⟩
        · exact .inr ⟨_, .target hs hl ht⟩

variable {arcs : List Arc} {ts : List (StateId × Transition)}

-- An arc with the state that its transition goes to.
def Places (b : Builder) (arc : Arc) (x : StateId × Transition) : Prop :=
  x.1 = arc.source ∧ b.Resolves arc x.2

-- The first arc that offends, with what is reported of it.
def FirstOffence (b : Builder) (arcs : List Arc) (e : BuildError) : Prop :=
  ∃ before arc after, arcs = before ++ arc :: after ∧ (∀ x ∈ before, ∃ t, b.Resolves x t) ∧
    b.Offends arc e

theorem resolveAll_ok (hp : b.Paired) (h : List.Forall₂ b.Places arcs ts) :
    b.resolveAll arcs = .ok ts := by
  induction h
  case nil => rfl
  case cons x _ _ hx _ hi =>
    obtain ⟨source, t⟩ := x
    obtain ⟨rfl, ht⟩ := hx
    simp [resolveAll, ht.resolve_eq hp, hi, bind, Except.bind, pure, Except.pure]

theorem resolveAll_error (hp : b.Paired) (h : b.FirstOffence arcs e) :
    b.resolveAll arcs = .error e := by
  obtain ⟨before, arc, after, rfl, hb, he⟩ := h
  induction before
  case nil => simp [resolveAll, he.resolve_eq, bind, Except.bind]
  case cons x before hi =>
    obtain ⟨⟨t, ht⟩, hb⟩ := List.forall_mem_cons.mp hb
    simp [resolveAll, ht.resolve_eq hp, hi hb, bind, Except.bind]

theorem exists_places (h : ∀ arc ∈ arcs, ∃ t, b.Resolves arc t) :
    ∃ ts, List.Forall₂ b.Places arcs ts := by
  induction arcs
  case nil => exact ⟨[], .nil⟩
  case cons arc arcs hi =>
    have ⟨⟨t, ht⟩, h⟩ := List.forall_mem_cons.mp h
    have ⟨ts, hts⟩ := hi h
    exact ⟨(arc.source, t) :: ts, .cons ⟨rfl, ht⟩ hts⟩

theorem resolve_all_or_offence (ha : ∀ arc ∈ arcs, Aimed arc) :
    (∀ arc ∈ arcs, ∃ t, b.Resolves arc t) ∨ ∃ e, b.FirstOffence arcs e := by
  induction arcs
  case nil => exact .inl (by simp)
  case cons arc arcs hi =>
    have ⟨ha, has⟩ := List.forall_mem_cons.mp ha
    rcases resolves_or_offends ha with ht | ⟨e, he⟩
    case inr => exact .inr ⟨e, [], arc, arcs, rfl, by simp, he⟩
    case inl =>
      rcases hi has with h | ⟨e, before, x, after, rfl, hb, he⟩
      · exact .inl (List.forall_mem_cons.mpr ⟨ht, h⟩)
      · exact .inr ⟨e, arc :: before, x, after, rfl, List.forall_mem_cons.mpr ⟨ht, hb⟩, he⟩

-- The transitions of a state are those of the arcs that leave it.
theorem Places.filter (h : List.Forall₂ b.Places arcs ts) (k : StateId) :
    List.Forall₂ b.Resolves (arcs.filter (·.source = k)) ((ts.filter (·.1 = k)).map Prod.snd) := by
  have hf : List.Forall₂ b.Places (arcs.filter (·.source = k)) (ts.filter (·.1 = k)) :=
    List.rel_filter (fun arc x hx => by simp [hx.left]) h
  exact List.forall₂_map_right_iff.mpr (hf.imp fun _ _ hx => hx.right)

section Outcome

variable (b : Builder)

-- All references of a script hold.
structure Sound : Prop where
  states  : ∀ x ∈ b.states, x.2 < b.rules.length
  sources : ∀ arc ∈ b.arcs, arc.source < b.states.length
  targets : ∀ arc ∈ b.arcs, ¬arc.label.IsCall →
    ∃ target, arc.target = some target ∧ target < b.states.length
  calls   : ∀ arc ∈ b.arcs, ∀ index follow, arc.label = .rule index follow →
    follow < b.states.length ∧ ∃ rule, b.rules[index]? = some rule ∧
      ∀ target, arc.target = some target → target = rule.start

-- The first state of a rule that does not exist, or else the first arc that offends.
inductive Fault : BuildError → Prop
  | state {before after : List (StateKind × RuleIndex)} {kind : StateKind} {rule : RuleIndex} :
    b.states = before ++ (kind, rule) :: after → (∀ x ∈ before, x.2 < b.rules.length) →
    b.rules.length ≤ rule → Fault (.unknownRule rule)
  | arc {e : BuildError} :
    (∀ x ∈ b.states, x.2 < b.rules.length) → b.FirstOffence b.arcs e → Fault e

-- The largest of the types that the vocabulary and the transitions name.
structure Largest (type : TokenType) : Prop where
  named      : type = b.vocabulary.maxType ∨ ∃ arc ∈ b.arcs, arc.label.Names type
  vocabulary : b.vocabulary.maxType ≤ type
  arcs       : ∀ arc ∈ b.arcs, ∀ type', arc.label.Names type' → type' ≤ type

-- The automaton is what was asked for.
structure Freezes (a : Automaton) : Prop where
  length     : a.states.length = b.states.length
  state      : ∀ k kind rule, b.states[k]? = some (kind, rule) →
    ∃ ts, a.state? k = some ⟨k, kind, rule, ts⟩ ∧
      List.Forall₂ b.Resolves (b.arcs.filter (·.source = k)) ts
  rules      : a.rules = b.rules
  wired      : a.Wired
  vocabulary : a.vocabulary = b.vocabulary
  maxType    : ∀ type, b.maxType = some type → a.maxType = type

end Outcome

theorem exists_resolves_iff :
    (∃ t, b.Resolves arc t) ↔
      arc.source < b.states.length ∧
      (¬arc.label.IsCall → ∃ target, arc.target = some target ∧ target < b.states.length) ∧
      ∀ index follow, arc.label = .rule index follow →
        follow < b.states.length ∧ ∃ rule, b.rules[index]? = some rule ∧
          ∀ target, arc.target = some target → target = rule.start := by
  constructor
  case mp =>
    rintro ⟨t, h⟩
    cases h
    case step target label hs hl ht =>
      exact ⟨hs, fun _ => ⟨target, rfl, ht⟩, fun index follow he => absurd ⟨_, _, he⟩ hl⟩
    case call rule hs hr hf ht =>
      refine ⟨hs, fun hl => absurd ⟨_, _, rfl⟩ hl, fun index follow he => ?_⟩
      cases he
      exact ⟨hf, rule, hr, ht⟩
  case mpr =>
    obtain ⟨source, target, label⟩ := arc
    rintro ⟨hs, hstep, hcall⟩
    by_cases hl : label.IsCall
    case pos =>
      obtain ⟨index, follow, rfl⟩ := hl
      obtain ⟨hf, rule, hr, ht⟩ := hcall index follow rfl
      exact ⟨_, .call hs hr hf ht⟩
    case neg =>
      obtain ⟨t, rfl, ht⟩ := hstep hl
      exact ⟨_, .step hs hl ht⟩

theorem sound_iff :
    b.Sound ↔ (∀ x ∈ b.states, x.2 < b.rules.length) ∧ ∀ arc ∈ b.arcs, ∃ t, b.Resolves arc t := by
  simp only [exists_resolves_iff]
  constructor
  case mp =>
    intro h
    exact ⟨h.states, fun arc ha => ⟨h.sources arc ha, h.targets arc ha, h.calls arc ha⟩⟩
  case mpr =>
    rintro ⟨hs, h⟩
    exact ⟨hs, fun arc ha => (h arc ha).left, fun arc ha => (h arc ha).right.left,
      fun arc ha => (h arc ha).right.right⟩

theorem strayState?_eq_none : b.strayState? = none ↔ ∀ x ∈ b.states, x.2 < b.rules.length := by
  simp [strayState?, List.find?_eq_none]

theorem strayState?_eq_some {kind : StateKind} {rule : RuleIndex} :
    b.strayState? = some (kind, rule) ↔ b.rules.length ≤ rule ∧ ∃ before after,
      b.states = before ++ (kind, rule) :: after ∧ ∀ x ∈ before, x.2 < b.rules.length := by
  simp [strayState?, List.find?_eq_some_iff_append]

theorem foldl_max_spec (types : List TokenType) (type : TokenType) :
    (types.foldl max type = type ∨ types.foldl max type ∈ types) ∧
      type ≤ types.foldl max type ∧ ∀ t ∈ types, t ≤ types.foldl max type := by
  induction types generalizing type
  case nil => simp
  case cons x types hi =>
    have ⟨hm, hle, hall⟩ := hi (max type x)
    have hor : max type x = type ∨ max type x = x := by
      change (if type ≤ x then x else type) = type ∨ (if type ≤ x then x else type) = x
      split <;> simp
    simp only [Int32.le_iff_toInt_le, Interval.toInt_max] at hle hall
    simp only [List.foldl_cons, List.mem_cons, Int32.le_iff_toInt_le, forall_eq_or_imp]
    refine ⟨?_, by omega, by omega, hall⟩
    rcases hm with hm | hm
    · rw [hm]
      exact hor.imp_right .inl
    · exact .inr (.inr hm)

theorem Labelled.largest_largestType (h : b.Labelled) : b.Largest b.largestType := by
  have ⟨hm, hle, hall⟩ :=
    foldl_max_spec (b.arcs.filterMap (·.label.largest?)) b.vocabulary.maxType
  refine ⟨hm.imp_right fun hm => ?_, hle, fun arc ha type hn => ?_⟩
  · have ⟨arc, ha, hl⟩ := List.mem_filterMap.mp hm
    exact ⟨arc, ha, ((h arc ha).largest?_eq_some hl).left⟩
  · have ⟨m, hl⟩ := Label.exists_largest? hn
    exact Int32.le_trans (((h arc ha).largest?_eq_some hl).right type hn)
      (hall m (List.mem_filterMap.mpr ⟨arc, ha, hl⟩))

theorem Labelled.largest {fresh : AutomatonId} {a : Automaton} (h : b.Labelled)
    (hb : b.build fresh = .ok a) (hn : b.maxType = none) : b.Largest a.maxType := by
  have ⟨_, _, _, hm, _⟩ := build_eq_ok hb
  rw [hm, hn]
  exact h.largest_largestType

theorem Fault.build_eq {fresh : AutomatonId} (hp : b.Paired) (h : b.Fault e) :
    b.build fresh = .error e := by
  cases h
  case state he hb hr => rw [build, strayState?_eq_some.mpr ⟨hr, _, _, he, hb⟩]
  case arc hs h =>
    rw [build, strayState?_eq_none.mpr hs, resolveAll_error hp h]
    rfl

theorem Sound.exists_build (hp : b.Paired) (h : b.Sound) (fresh : AutomatonId) :
    ∃ a, b.build fresh = .ok a ∧ b.Freezes a := by
  obtain ⟨hs, hr⟩ := sound_iff.mp h
  obtain ⟨ts, hts⟩ := exists_places hr
  have hb : b.build fresh = .ok {
      id         := b.id.getD fresh
      states     := b.states.mapIdx fun id x =>
        ⟨id, x.1, x.2, (ts.filter (·.1 = id)).map Prod.snd⟩
      rules      := b.rules
      vocabulary := b.vocabulary
      maxType    := b.maxType.getD b.largestType } := by
    rw [build, strayState?_eq_none.mpr hs, resolveAll_ok hp hts]
    rfl
  refine ⟨_, hb, ⟨by simp, fun k kind rule hk => ?_, rfl, hp.wired hb, rfl, fun type ht => ?_⟩⟩
  · exact ⟨_, by simp [Automaton.state?, hk], Places.filter hts k⟩
  · simp [ht]

theorem sound_or_fault (ha : ∀ arc ∈ b.arcs, Aimed arc) : b.Sound ∨ ∃ e, b.Fault e := by
  cases hs : b.strayState?
  case some x =>
    obtain ⟨kind, rule⟩ := x
    have ⟨hr, before, after, he, hb⟩ := strayState?_eq_some.mp hs
    exact .inr ⟨_, .state he hb hr⟩
  case none =>
    have hs := strayState?_eq_none.mp hs
    rcases resolve_all_or_offence ha with h | ⟨e, he⟩
    · exact .inl (sound_iff.mpr ⟨hs, h⟩)
    · exact .inr ⟨e, .arc hs he⟩

theorem aimed_of_mem_run {arc : Arc} {calls : List BuilderCall}
    (h : arc ∈ (Builder.empty.run calls).arcs) : Aimed arc := by
  rw [(records_run .empty calls).arcs, empty, List.nil_append, List.mem_filterMap] at h
  obtain ⟨call, _, hc⟩ := h
  cases call <;> cases hc
  case addTransition => exact fun h => absurd h (by simp)
  case addCall       => exact fun _ => ⟨_, _, rfl⟩

theorem build_cases (hp : b.Paired) (ha : ∀ arc ∈ b.arcs, Aimed arc) (fresh : AutomatonId) :
    (b.Sound ∧ ∃ a, b.build fresh = .ok a ∧ b.Freezes a) ∨
      ∃ e, b.Fault e ∧ b.build fresh = .error e := by
  rcases sound_or_fault ha with h | ⟨e, he⟩
  · exact .inl ⟨h, h.exists_build hp fresh⟩
  · exact .inr ⟨e, he, he.build_eq hp⟩

-- A script of calls is accepted just if all its references hold. Then the automaton is what was
-- asked for, and otherwise the first reference that does not hold is reported. If no largest type
-- was given, it is found, as long as the sets in the script were built by insertion.
theorem build_exact (calls : List BuilderCall) (fresh : AutomatonId) :
    let b := Builder.empty.run calls
    Builder.empty.Records calls b ∧
    ((∃ a, b.build fresh = .ok a) ↔ b.Sound) ∧
    (∀ a, b.build fresh = .ok a → b.Freezes a ∧
      (b.maxType = none → (∀ call ∈ calls, call.Canonical) → b.Largest a.maxType)) ∧
    ∀ e, b.build fresh = .error e ↔ b.Fault e := by
  intro b
  have hp : b.Paired := paired_empty.run calls
  have hb := build_cases hp (fun _ => aimed_of_mem_run) fresh
  refine ⟨records_run .empty calls, ⟨?_, fun h => ?_⟩, ?_, fun e => ⟨?_, Fault.build_eq hp⟩⟩
  · rintro ⟨a, ha⟩
    rcases hb with ⟨hs, _⟩ | ⟨e, _, he⟩
    · exact hs
    · cases ha.symm.trans he
  · have ⟨a, ha, _⟩ := h.exists_build hp fresh
    exact ⟨a, ha⟩
  · intro a ha
    refine ⟨?_, fun hn hc => (labelled_empty.run hc).largest ha hn⟩
    rcases hb with ⟨_, a', ha', hf⟩ | ⟨e, _, he⟩
    · cases ha.symm.trans ha'
      exact hf
    · cases ha.symm.trans he
  · intro he
    rcases hb with ⟨_, a, ha, _⟩ | ⟨e', hf, he'⟩
    · cases he.symm.trans ha
    · cases he.symm.trans he'
      exact hf

-- Transitions between states and a call of a rule that are all added later on.
def forwardScript : List BuilderCall := [
  .addCall 0 1 4,
  .addTransition 2 3 (.notSet (.ofRange 5 7)),
  .addRule "outer",
  .addRule "inner",
  .addTransition 4 1 (.atom 2),
  .addState 0 .basic
]

theorem build_exact_forward :
    (∃ a, (empty.run forwardScript).build ⟨0⟩ = .ok a ∧
      (∃ ts, a.state? 0 = some ⟨0, .ruleStart, 0, ts⟩ ∧
        List.Forall₂ (empty.run forwardScript).Resolves [⟨0, none, .rule 1 4⟩] ts) ∧
      (empty.run forwardScript).Largest a.maxType) ∧
    (empty.run (forwardScript ++ [.addTransition 9 0 .epsilon, .addCall 0 7 1])).Fault
      (.unknownState 9) := by
  have hb : ∃ a, (empty.run forwardScript).build ⟨0⟩ = .ok a := ⟨_, rfl⟩
  have hc : ∀ call ∈ forwardScript, call.Canonical := by
    have hrange : (IntervalSet.ofRange 5 7).Canonical := .insertRange .empty 5 7
    simpa [forwardScript, BuilderCall.Canonical, Label.Canonical] using hrange
  have he : (empty.run (forwardScript ++ [.addTransition 9 0 .epsilon, .addCall 0 7 1])).build ⟨0⟩ =
      .error (.unknownState 9) := rfl
  obtain ⟨a, ha⟩ := hb
  have ⟨hf, hlargest⟩ := (build_exact forwardScript ⟨0⟩).right.right.left a ha
  exact ⟨⟨a, ha, hf.state 0 _ _ rfl, hlargest rfl hc⟩,
    ((build_exact (forwardScript ++ _) ⟨0⟩).right.right.right _).mp he⟩

end Builder
end Caret
