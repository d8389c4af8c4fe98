import Caret.Proofs.Completion.Following

-- The tokens forced after an atom, as seen by the runs that go on from it. Whatever a run does, it
-- consumes these tokens first, and until it has, it can neither end nor turn off. The search for
-- them ends by itself on every graph, since it looks at no state twice.
namespace Caret.Automaton

variable {a : Automaton} {s s' : StateId} {t : Transition} {type : TokenType}
  {steps before after : List Step} {F F' : List TokenType} {holds : PredicateId → Prop}

section Run

theorem next_eq_target (h : ∀ r follow, t.label ≠ .rule r follow) : t.next = t.target := by
  unfold Transition.next
  split
  case h_1 r follow ht => exact absurd ht (h r follow)
  case h_2 => rfl

theorem Run.route (h : a.Run holds s steps s') : a.Route s (steps.map Step.label) s' := by
  induction h
  case nil => exact .nil
  case free hl hf _ hi =>
    refine .cons hl ?_
    rwa [next_eq_target]
    simp [hf]
  case test hl hf _ _ hi =>
    refine .cons hl ?_
    rwa [next_eq_target]
    simp [hf]
  case token hl ha _ hi =>
    refine .cons hl ?_
    rwa [next_eq_target]
    rcases ha with ha | ⟨_, ha, _⟩
    · simp [ha]
    · intro r follow hr
      simp [hr, Label.matchSet?] at ha
  case call hl _ _ _ _ hi => exact .cons hl hi

-- A run can be interrupted anywhere.
theorem Run.split (h : a.Run holds s (before ++ after) s') :
    ∃ mid, a.Run holds s before mid ∧ a.Run holds mid after s' := by
  induction before generalizing s
  case nil => exact ⟨s, .nil, h⟩
  case cons step before hi =>
    rcases h with _ | ⟨hl, hf, h⟩ | ⟨hl, hf, hh, h⟩ | ⟨hl, ht, h⟩ | ⟨hl, hc, hs, h⟩
    · obtain ⟨mid, hb, ha⟩ := hi h
      exact ⟨mid, .free hl hf hb, ha⟩
    · obtain ⟨mid, hb, ha⟩ := hi h
      exact ⟨mid, .test hl hf hh hb, ha⟩
    · obtain ⟨mid, hb, ha⟩ := hi h
      exact ⟨mid, .token hl ht hb, ha⟩
    · obtain ⟨mid, hb, ha⟩ := hi h
      exact ⟨mid, .call hl hc hs hb, ha⟩

-- What a step consumes is certain if its label is an atom or free.
structure Step.Plain (step : Step) : Prop where
  free : step.label = .epsilon → step.tokens = []
  atom : ∀ type, step.label = .atom type → step.tokens = [type]

theorem accepts_of_atom {type' : TokenType} (ht : t.label = .atom type') :
    a.Accepts t type ↔ type = type' := by
  simp [Accepts, ht, Label.matchSet?, IntervalSet.mem_singleton]

theorem Accepts.plain (h : a.Accepts t type) : Step.Plain ⟨t.label, [type]⟩ := by
  constructor
  case free =>
    rintro (ht : t.label = .epsilon)
    simp [Accepts, ht, Label.matchSet?] at h
  case atom =>
    intro type' ht
    simpa using (accepts_of_atom ht).mp h

theorem Run.plain (h : a.Run holds s steps s') : ∀ step ∈ steps, step.Plain := by
  induction h
  case nil => simp
  case free hf _ hi   => exact List.forall_mem_cons.mpr ⟨⟨fun _ => rfl, by simp [hf]⟩, hi⟩
  case test hf _ _ hi => exact List.forall_mem_cons.mpr ⟨⟨fun _ => rfl, by simp [hf]⟩, hi⟩
  case token ha _ hi => exact List.forall_mem_cons.mpr ⟨ha.plain, hi⟩
  case call hi => exact List.forall_mem_cons.mpr ⟨⟨by simp, by simp⟩, hi⟩

-- Once the forced labels have been passed, so have the forced tokens.
theorem forced_prefix_consumed (hp : ∀ step ∈ steps, step.Plain)
    (h : F.map .atom <+: (steps.map Step.label).filter (· ≠ .epsilon)) : F <+: consumed steps := by
  induction steps generalizing F
  case nil => simpa [consumed] using h
  case cons step steps hi =>
    obtain ⟨hs, hp⟩ := List.forall_mem_cons.mp hp
    by_cases he : step.label = .epsilon
    case pos =>
      have hF : F <+: consumed steps := hi hp (by simpa [he] using h)
      simpa [consumed, hs.free he] using hF
    case neg =>
      cases F
      case nil => exact List.nil_prefix
      case cons f F =>
        simp only [List.map_cons, List.filter_cons, he, ne_eq, not_false_eq_true, decide_true,
          if_true, List.cons_prefix_cons] at h
        obtain ⟨hl, h⟩ := h
        simpa [consumed, hs.atom f hl.symm] using hi hp h

-- As long as no other labels have been passed, no other tokens have been consumed.
theorem consumed_prefix_forced (hp : ∀ step ∈ steps, step.Plain)
    (h : (steps.map Step.label).filter (· ≠ .epsilon) <+: F.map .atom) : consumed steps <+: F := by
  induction steps generalizing F
  case nil => exact List.nil_prefix
  case cons step steps hi =>
    obtain ⟨hs, hp⟩ := List.forall_mem_cons.mp hp
    by_cases he : step.label = .epsilon
    case pos =>
      have hF : consumed steps <+: F := hi hp (by simpa [he] using h)
      simpa [consumed, hs.free he] using hF
    case neg =>
      cases F
      case nil => simp [he] at h
      case cons f F =>
        simp only [List.map_cons, List.filter_cons, he, ne_eq, not_false_eq_true, decide_true,
          if_true, List.cons_prefix_cons] at h
        obtain ⟨hl, h⟩ := h
        simpa [consumed, hs.atom f hl] using hi hp h

theorem Forces.consumed (hf : a.Forces s F) (h : a.Run holds s steps s') :
    F <+: consumed steps ∨ consumed steps <+: F ∧ a.OneWay s' :=
  (hf _ _ h.route).imp (forced_prefix_consumed h.plain) <|
    And.imp_left (consumed_prefix_forced h.plain)

-- A run that has not come to the end of the forced tokens has only one way on.
theorem Forces.oneWay (hf : a.Forces s F) (h : a.Run holds s steps s')
    (hlt : (Automaton.consumed steps).length < F.length) : a.OneWay s' := by
  rcases hf.consumed h with hp | ⟨_, ho⟩
  · exact absurd hp.length_le (by omega)
  · exact ho

end Run

-- The search ends after at most as many moves as there are states. Wherever a run from the target
-- on is interrupted before it has consumed all of the forced tokens, it is in a state that is no
-- stop state and has a single transition, an atom or a free one.
theorem forcedAfter_exact (a : Automaton) (t : Transition) (type : TokenType)
    (ht : t.label = .atom type) :
    (∃ moves ≤ a.states.length, ∀ n F,
      a.Search [] t.target n F ↔ n = moves ∧ F = a.forcedAfter t) ∧
    ∀ holds steps s', a.Run holds t.target steps s' →
      (a.forcedAfter t <+: consumed steps ∨ consumed steps <+: a.forcedAfter t) ∧
      ∀ before after, steps = before ++ after →
        (consumed before).length < (a.forcedAfter t).length →
        ∃ mid, a.Run holds t.target before mid ∧ a.Run holds mid after s' ∧ a.OneWay mid := by
  constructor
  · simpa only [forcedAfter, ht] using search_finishes a t.target
  · intro holds steps s' h
    have hf : a.Forces t.target (a.forcedAfter t) := forcedAfter_forces
    refine ⟨(hf.consumed h).imp_right And.left, ?_⟩
    rintro before after rfl hlt
    obtain ⟨mid, hb, ha⟩ := h.split
    exact ⟨mid, hb, ha, hf.oneWay hb hlt⟩

-- After an atom two more in a circle that is never left, with a free transition between them.
def carousel : Automaton where
  id         := ⟨0⟩
  states     := [
    ⟨0, .ruleStart, 0, [⟨2, .atom 1⟩]⟩,
    ⟨1, .ruleStop, 0, []⟩,
    ⟨2, .basic, 0, [⟨3, .atom 2⟩]⟩,
    ⟨3, .loopBack, 0, [⟨4, .epsilon⟩]⟩,
    ⟨4, .basic, 0, [⟨2, .atom 3⟩]⟩
  ]
  rules      := [⟨"carousel", 0, 1⟩]
  vocabulary := .empty
  maxType    := 3

-- Once around and a step further.
theorem carousel_run (holds : PredicateId → Prop) :
    carousel.Run holds 2 [⟨.atom 2, [2]⟩, ⟨.epsilon, []⟩, ⟨.atom 3, [3]⟩, ⟨.atom 2, [2]⟩] 3 := by
  have h₂ : carousel.Leaves 2 ⟨3, .atom 2⟩ := ⟨_, rfl, rfl, by simp⟩
  have h₃ : carousel.Leaves 3 ⟨4, .epsilon⟩ := ⟨_, rfl, rfl, by simp⟩
  have h₄ : carousel.Leaves 4 ⟨2, .atom 3⟩ := ⟨_, rfl, rfl, by simp⟩
  exact .token h₂ ((accepts_of_atom rfl).mpr rfl) <| .free h₃ rfl <|
    .token h₄ ((accepts_of_atom rfl).mpr rfl) <| .token h₂ ((accepts_of_atom rfl).mpr rfl) .nil

theorem forcedAfter_exact_carousel :
    carousel.forcedAfter ⟨2, .atom 1⟩ = [2, 3] ∧
    (∃ moves ≤ 5, ∀ n F, carousel.Search [] 2 n F ↔ n = moves ∧ F = [2, 3]) ∧
    ([2, 3] <+: ([2, 3, 2] : List TokenType) ∨ [2, 3, 2] <+: ([2, 3] : List TokenType)) ∧
    ∃ mid, carousel.Run (fun _ => True) 2 [⟨.atom 2, [2]⟩, ⟨.epsilon, []⟩] mid ∧
      carousel.OneWay mid := by
  have hF : carousel.forcedAfter ⟨2, .atom 1⟩ = [2, 3] := by decide
  obtain ⟨hsearch, hruns⟩ := forcedAfter_exact carousel ⟨2, .atom 1⟩ 1 rfl
  obtain ⟨hfront, hpoints⟩ := hruns _ _ _ (carousel_run _)
  obtain ⟨mid, hb, _, ho⟩ :=
    hpoints [⟨.atom 2, [2]⟩, ⟨.epsilon, []⟩] _ rfl (by rw [hF]; decide)
  rw [hF] at hsearch hfront
  exact ⟨hF, hsearch, hfront, mid, hb, ho⟩

end Caret.Automaton
