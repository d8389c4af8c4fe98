import Caret.Automaton.Builder

-- Automata that come from a builder. Whatever calls were made, the rules of such an automaton have
-- their own start and stop states, and a call of a rule aims at its start.
namespace Caret

-- A call that adds to a builder.
inductive BuilderCall
  | named (name : String)
  | withVocabulary (vocabulary : Vocabulary)
  | withMaxType (maxType : TokenType)
  | addRule (name : String)
  | addState (rule : RuleIndex) (kind : StateKind)
  | addTransition (source target : StateId) (label : Label)
  | addCall (source : StateId) (rule : RuleIndex) (follow : StateId)

namespace Builder

def after (b : Builder) : BuilderCall → Builder
  | .named name                        => b.named name
  | .withVocabulary vocabulary         => b.withVocabulary vocabulary
  | .withMaxType maxType               => b.withMaxType maxType
  | .addRule name                      => b.addRule name
  | .addState rule kind                => b.addState rule kind
  | .addTransition source target label => b.addTransition source target label
  | .addCall source rule follow        => b.addCall source rule follow

def run (b : Builder) (calls : List BuilderCall) : Builder :=
  calls.foldl after b

end Builder

-- The sets of types are as insertion leaves them.
def Label.Canonical : Label → Prop
  | .set types | .notSet types => types.Canonical
  | _                          => True

def BuilderCall.Canonical : BuilderCall → Prop
  | .addTransition _ _ label => label.Canonical
  | _                        => True

namespace Automaton

-- The automaton is what some builder calls lead to, with sets that were built by insertion.
def Built (a : Automaton) : Prop :=
  ∃ calls id, (∀ call ∈ calls, call.Canonical) ∧ (Builder.empty.run calls).build id = .ok a

structure Wired (a : Automaton) : Prop where
  start : ∀ {r s}, a.ruleStart? r = some s →
    ∃ state, a.state? s = some state ∧ state.rule = r ∧ state.kind = .ruleStart
  stop  : ∀ {r s}, a.ruleStop? r = some s →
    ∃ state, a.state? s = some state ∧ state.rule = r ∧ state.kind = .ruleStop
  call  : ∀ {s state target r follow}, a.state? s = some state →
    ⟨target, .rule r follow⟩ ∈ state.transitions → a.ruleStart? r = some target

structure WellFormed (a : Automaton) : Prop extends Wired a where
  label : ∀ {s state t}, a.state? s = some state → t ∈ state.transitions → t.label.Canonical

end Automaton

namespace Builder

-- Every rule has the start and the stop state that were added with it.
structure Owned (b : Builder) (r : RuleIndex) (rule : Rule) : Prop where
  start : b.states[rule.start]? = some (.ruleStart, r)
  stop  : b.states[rule.stop]? = some (.ruleStop, r)

def Paired (b : Builder) : Prop :=
  ∀ r rule, b.rules[r]? = some rule → b.Owned r rule

variable {b b' : Builder} {r : RuleIndex} {rule : Rule}

theorem Owned.mono (h : b.Owned r rule) (hs : b.states <+: b'.states) : b'.Owned r rule := by
  have ⟨added, hs⟩ := hs
  have hlt {s : StateId} {x} (hx : b.states[s]? = some x) : b'.states[s]? = some x := by
    have ⟨hl, _⟩ := List.getElem?_eq_some_iff.mp hx
    rw [← hs, List.getElem?_append_left hl, hx]
  exact ⟨hlt h.start, hlt h.stop⟩

theorem Paired.mono (h : b.Paired) (hs : b.states <+: b'.states) (hr : b'.rules = b.rules) :
    b'.Paired :=
  fun r rule he => (h r rule (hr ▸ he)).mono hs

theorem Paired.addRule (h : b.Paired) (name : String) : (b.addRule name).Paired := by
  have hs : b.states <+: (b.addRule name).states := by simp [Builder.addRule, addState]
  have hr : (b.addRule name).rules = b.rules ++ [⟨name, b.states.length, b.states.length + 1⟩] :=
    rfl
  intro r rule he
  rw [hr, List.getElem?_append] at he
  split at he
  case isTrue => exact (h r rule he).mono hs
  case isFalse hl =>
    have ⟨hlt, he⟩ := List.getElem?_eq_some_iff.mp he
    have hr : r = b.rules.length :=
      Nat.le_antisymm (Nat.sub_eq_zero_iff_le.mp (Nat.lt_one_iff.mp hlt)) (Nat.le_of_not_lt hl)
    subst hr
    simp at he
    subst he
    constructor <;> simp [Builder.addRule, addState]

-- Only an added rule changes the list of rules, and states are never taken away.
theorem Paired.after (h : b.Paired) (call : BuilderCall) : (b.after call).Paired := by
  cases call
  case addRule name       => exact h.addRule name
  case addState rule kind => exact h.mono (List.prefix_append ..) rfl
  all_goals exact h.mono List.prefix_rfl rfl

theorem Paired.run (h : b.Paired) (calls : List BuilderCall) : (b.run calls).Paired := by
  induction calls generalizing b
  case nil => exact h
  case cons call calls hi => exact hi (h.after call)

theorem paired_empty : empty.Paired := by
  intro r rule he
  simp [empty] at he

variable {arc : Arc} {arcs : List Arc} {t : Transition} {source follow s : StateId}
  {ts : List (StateId × Transition)} {id : AutomatonId} {a : Automaton} {state : State}

-- The target of a call is the start of the rule that is called, given or not.
theorem resolve_call (h : b.resolve arc = .ok t) (hl : t.label = .rule r follow) :
    ∃ rule, b.rules[r]? = some rule ∧ t.target = rule.start := by
  obtain ⟨s, target, label⟩ := arc
  cases label
  case rule =>
    simp only [resolve, bind, Except.bind, pure, Except.pure] at h
    split at h <;> try contradiction
    split at h <;> try contradiction
    rename_i rule hr
    split at h <;> try contradiction
    split at h <;> try contradiction
    rename_i he
    split at h <;> try contradiction
    cases h
    cases hl
    exact ⟨rule, hr, he⟩
  -- The label of an arc is kept.
  all_goals
    simp only [resolve, bind, Except.bind, pure, Except.pure] at h
    split at h <;> try contradiction
    cases target <;> simp only [reduceCtorEq] at h
    split at h <;> try contradiction
    cases h
    cases hl

theorem resolve_label (h : b.resolve arc = .ok t) : t.label = arc.label := by
  simp only [resolve, bind, Except.bind, pure, Except.pure] at h
  repeat' split at h
  all_goals try contradiction
  all_goals
    cases h
    rfl

theorem exists_arc_of_resolveAll (h : b.resolveAll arcs = .ok ts) (hm : (source, t) ∈ ts) :
    ∃ arc ∈ arcs, b.resolve arc = .ok t := by
  induction arcs generalizing ts
  case nil =>
    cases h
    simp at hm
  case cons arc arcs hi =>
    simp only [resolveAll, bind, Except.bind, pure, Except.pure] at h
    split at h <;> try contradiction
    split at h <;> try contradiction
    rename_i t' hr _ rest hrest
    cases h
    rcases List.mem_cons.mp hm with he | hm
    · cases he
      exact ⟨arc, List.mem_cons_self .., hr⟩
    · have ⟨arc', hm', hr'⟩ := hi hrest hm
      exact ⟨arc', List.mem_cons_of_mem _ hm', hr'⟩

-- What is built shares its rules with the builder, and its states are numbered as they were added.
theorem build_eq_ok (hb : b.build id = .ok a) :
    ∃ ts, b.resolveAll b.arcs = .ok ts ∧ a.rules = b.rules ∧
      a.maxType = b.maxType.getD b.largestType ∧
      a.states = b.states.mapIdx fun s x => ⟨s, x.1, x.2, (ts.filter (·.1 = s)).map Prod.snd⟩ := by
  simp only [build, bind, Except.bind, pure, Except.pure] at hb
  split at hb <;> try contradiction
  split at hb <;> try contradiction
  rename_i ts hts
  cases hb
  exact ⟨ts, hts, rfl, rfl, rfl⟩

theorem exists_state_of_build (hb : b.build id = .ok a) {kind : StateKind}
    (hs : b.states[s]? = some (kind, r)) :
    ∃ state, a.state? s = some state ∧ state.rule = r ∧ state.kind = kind := by
  have ⟨_, _, _, _, he⟩ := build_eq_ok hb
  simp [Automaton.state?, he, hs]

-- Every transition of an automaton comes from an arc.
theorem exists_arc_of_build (hb : b.build id = .ok a) (hs : a.state? s = some state)
    (hm : t ∈ state.transitions) : ∃ arc ∈ b.arcs, b.resolve arc = .ok t := by
  have ⟨_, hts, _, _, he⟩ := build_eq_ok hb
  simp only [Automaton.state?, he, List.getElem?_mapIdx, Option.map_eq_some_iff] at hs
  obtain ⟨x, _, rfl⟩ := hs
  simp only [List.mem_map, List.mem_filter] at hm
  obtain ⟨⟨source, t⟩, ⟨hm, _⟩, rfl⟩ := hm
  exact exists_arc_of_resolveAll hts hm

theorem Paired.wired (h : b.Paired) (hb : b.build id = .ok a) : a.Wired := by
  have ⟨_, _, hrules, _⟩ := build_eq_ok hb
  constructor
  case start =>
    intro r s hr
    have ⟨rule, he, hs⟩ := Option.map_eq_some_iff.mp hr
    exact hs ▸ exists_state_of_build hb (h r rule (hrules ▸ he)).start
  case stop =>
    intro r s hr
    have ⟨rule, he, hs⟩ := Option.map_eq_some_iff.mp hr
    exact hs ▸ exists_state_of_build hb (h r rule (hrules ▸ he)).stop
  case call =>
    intro s state target r follow hs hm
    have ⟨arc, _, ha⟩ := exists_arc_of_build hb hs hm
    have ⟨rule, hr, ht⟩ := resolve_call ha rfl
    simpa [Automaton.ruleStart?, hrules, hr] using ht.symm

-- No call but the one that adds a transition adds an arc with a set.
def Labelled (b : Builder) : Prop :=
  ∀ arc ∈ b.arcs, arc.label.Canonical

theorem Labelled.after {call : BuilderCall} (h : b.Labelled) (hc : call.Canonical) :
    (b.after call).Labelled := by
  cases call
  case addTransition => exact List.forall_mem_append.mpr ⟨h, List.forall_mem_singleton.mpr hc⟩
  case addCall       => exact List.forall_mem_append.mpr ⟨h, List.forall_mem_singleton.mpr trivial⟩
  all_goals exact h

theorem Labelled.run {calls : List BuilderCall} (h : b.Labelled)
    (hc : ∀ call ∈ calls, call.Canonical) : (b.run calls).Labelled := by
  induction calls generalizing b
  case nil => exact h
  case cons call calls hi =>
    have ⟨hc, hcs⟩ := List.forall_mem_cons.mp hc
    exact hi (h.after hc) hcs

theorem labelled_empty : empty.Labelled := by
  simp [Labelled, empty]

end Builder

theorem Automaton.Built.wellFormed {a : Automaton} (h : a.Built) : a.WellFormed := by
  obtain ⟨calls, id, hc, hb⟩ := h
  refine ⟨(Builder.paired_empty.run calls).wired hb, fun hs hm => ?_⟩
  have ⟨arc, ha, hr⟩ := Builder.exists_arc_of_build hb hs hm
  exact Builder.resolve_label hr ▸ Builder.labelled_empty.run hc arc ha

end Caret
