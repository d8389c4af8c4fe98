import Caret.Proofs.Completion.Candidates
import Caret.Proofs.Completion.Steps

-- A walk makes its suggestions on the way: it asks the settings and the cache as they are by then.
-- It comes to the same as its trace does, if the events of the trace are looked at one after the
-- other.
namespace Caret

namespace FirstSetCache

-- The cache after the events of a walk through an automaton.
def filled (c : FirstSetCache) (a : Automaton) (events : List Event) : FirstSetCache :=
  (events.filterMap Event.consulted?).foldl (fun c start => c.add a start) c

variable {c : FirstSetCache} {a : Automaton} {id id' : AutomatonId} {start start' : StateId}
  {sets : FirstSets} {events : List Event}

theorem get?_cons {entries : List ((AutomatonId × StateId) × FirstSets)} :
    get? ⟨((id', start'), sets) :: entries⟩ id start =
      if (id, start) = (id', start') then some sets else get? ⟨entries⟩ id start :=
  lookup_cons_eq

theorem get?_add : (c.add a start).get? a.id start = some (c.lookup a start) := by
  unfold add lookup
  cases h : c.get? a.id start
  case none => simp [get?_cons]
  case some => simpa using h

-- An entry that is added holds what would have been computed without it.
theorem lookup_add : (c.add a start).lookup a start' = c.lookup a start' := by
  by_cases hs : start' = start
  case pos => rw [hs, lookup, get?_add, Option.getD_some]
  case neg =>
    unfold add
    split
    case h_1 => rfl
    case h_2 => simp [lookup, get?_cons, hs]

theorem lookup_filled : (c.filled a events).lookup a start = c.lookup a start := by
  unfold filled
  induction events.filterMap Event.consulted? generalizing c
  case nil => rfl
  case cons start' starts hi => exact hi.trans lookup_add

end FirstSetCache

namespace Candidates

variable {c : Candidates} {s : Settings} {stack path : List RuleIndex} {rule : RuleIndex}
  {first : FirstSets} {symbols : IntervalSet} {following : List TokenType}

theorem addRule_addRule {path' : List RuleIndex} :
    (c.addRule rule path).addRule rule path' = c.addRule rule path := by
  unfold addRule
  split
  case isTrue  => simp_all
  case isFalse => simp [hasRule]

-- Once the outermost preferred rule of a stack has been added, nothing inside of it is.
theorem offer_addPreferred (h : ∃ r ∈ stack, s.isPreferred r) :
    (c.addPreferred s stack).offer s (stack ++ path) symbols following =
      c.addPreferred s stack := by
  cases ho : s.outermost? stack
  case none =>
    obtain ⟨r, hm, hr⟩ := h
    exact absurd hr (by simp [Settings.outermost?_eq_none.mp ho r hm])
  case some nominee =>
    simp only [offer, addPreferred, ho, Settings.outermost?_append ho, addRule_addRule]

-- The events of a rule that is entered at the caret, if the rule is preferred, come to one.
theorem offerAll_eq : c.offerAll s rule (stack ++ [rule]) first =
    (Query.offersOf (stack ++ [rule]) first).foldl (fun c e => c.observe s e) c := by
  simp only [offerAll, Query.offersOf, List.foldl_cons, List.foldl_map, observe,
    List.getLast?_concat, Option.any_some]
  split
  case isFalse => rfl
  case isTrue h =>
    have hpreferred : ∃ r ∈ stack ++ [rule], s.isPreferred r := ⟨rule, by simp, h⟩
    induction first.sets
    case nil => rfl
    case cons set sets hi => rw [List.foldl_cons, offer_addPreferred hpreferred, ← hi]

end Candidates

-- The walk could not go on.
def Event.IsFault : Event → Prop
  | .outside _ | .cutShort => True
  | _                      => False

-- Nothing keeps a walk from going on.
def Clear (events : List Event) : Prop :=
  ∀ e ∈ events, ¬e.IsFault

theorem clear_append {events events' : List Event} :
    Clear (events ++ events') ↔ Clear events ∧ Clear events' :=
  List.forall_mem_append

theorem clear_cons {e : Event} {events : List Event} :
    Clear (e :: events) ↔ ¬e.IsFault ∧ Clear events :=
  List.forall_mem_cons

namespace Request

variable (r : Request)

-- What becomes of a session with the events of a walk that leaves the progress `g`.
def after (x : Session) (g : Progress) (events : List Event) : Session where
  toProgress      := g
  cache           := x.cache.filled r.automaton events
  candidates      := events.foldl (fun c e => c.observe r.settings e) x.candidates
  statesProcessed := x.statesProcessed + events.countP Event.visited?
  asked           := x.asked ++ events.filterMap Event.asked?

-- The trace of a walk that a request makes.
def query (first : StateId → FirstSets) : Query where
  toReading := r.toReading
  first     := first
  prune     := true

-- What the cache gives, now and later.
def Reads (first : StateId → FirstSets) (x : Session) : Prop :=
  ∀ start, x.cache.lookup r.automaton start = first start

-- Rules are entered as in the trace, if nothing keeps the walk from going on.
def Follows (first : StateId → FirstSets) (enter : Entry)
    (call : StateId → Nat → Progress → Walked) : Prop :=
  ∀ start i x, r.Reads first x → Clear (call start i x.toProgress).events →
    enter start i x = .ok ((call start i x.toProgress).ends,
      r.after x (call start i x.toProgress).progress (call start i x.toProgress).events)

variable {r} {first : StateId → FirstSets} {x : Session} {g g' : Progress}
  {events events' : List Event} {current : TokenType} {index fresh depth : Nat} {t : Transition}
  {ts : List Transition} {enter : Entry} {call : StateId → Nat → Progress → Walked} {f : Frame}
  {pending visited : List Place} {ends : List Nat} {start : StateId}

theorem after_nil : r.after x x.toProgress [] = x := by
  simp [after, FirstSetCache.filled]

theorem after_append :
    r.after (r.after x g events) g' events' = r.after x g' (events ++ events') := by
  simp [after, FirstSetCache.filled, Nat.add_assoc]

theorem Reads.after (h : r.Reads first x) : r.Reads first (r.after x g events) :=
  fun start => FirstSetCache.lookup_filled.trans (h start)

-- Of the events of a move only those at the caret add candidates.
theorem after_offered {symbols : IntervalSet} {following : List TokenType} :
    r.after x x.toProgress [.offered x.stack symbols following] = r.offer symbols following x := by
  simp [after, FirstSetCache.filled, Event.consulted?, Event.visited?, Event.asked?, offer,
    Candidates.observe, List.filterMap_cons]

theorem after_passed : r.after x x.toProgress [.passed x.stack] =
    { x with candidates := x.candidates.addPreferred r.settings x.stack } := by
  simp [after, FirstSetCache.filled, Event.consulted?, Event.visited?, Event.asked?,
    Candidates.observe, List.filterMap_cons]

theorem after_asked {id : PredicateId} :
    r.after x x.toProgress [.asked id] = x.ask id := by
  simp [after, Session.ask, FirstSetCache.filled, Event.consulted?, Event.visited?, Event.asked?,
    Candidates.observe, List.filterMap_cons]

theorem move_follows (first : StateId → FirstSets) : r.move current index t x =
    (((r.query first).move x.stack current index t).fst,
      r.after x x.toProgress ((r.query first).move x.stack current index t).snd) := by
  obtain ⟨target, label⟩ := t
  unfold query
  cases label <;> simp only [move, Query.move, Label.matchSet?]
  case rule      => rw [after_nil]
  case predicate => rw [after_asked]
  case epsilon   => split <;> simp only [after_passed, after_nil]
  case wildcard  => split <;> simp only [after_offered, after_nil]
  all_goals
    split
    case isTrue  => simp only [after_nil]
    case isFalse => split <;> simp only [after_offered, after_nil]

theorem take_follows (hf : r.Follows first enter call) (hx : r.Reads first x)
    (hc : Clear ((r.query first).take call current index t x.toProgress).events) :
    r.take enter current index t x =
      .ok (((r.query first).take call current index t x.toProgress).places,
        r.after x ((r.query first).take call current index t x.toProgress).progress
          ((r.query first).take call current index t x.toProgress).events) := by
  unfold take
  generalize hw : (r.query first).take call current index t x.toProgress = w at hc ⊢
  cases Query.taken_of_eq hw
  case call follow h =>
    simp only [h]
    rw [hf t.target index x hx hc]
    rfl
  case move h =>
    split
    case h_1 r' follow he => exact absurd he (h r' follow)
    case h_2 =>
      rw [move_follows first]
      rfl

theorem takeAll_follows (hf : r.Follows first enter call) (hx : r.Reads first x)
    (hc : Clear ((r.query first).takeAll call current index ts x.toProgress).events) :
    r.takeAll enter current index ts x =
      .ok (((r.query first).takeAll call current index ts x.toProgress).places,
        r.after x ((r.query first).takeAll call current index ts x.toProgress).progress
          ((r.query first).takeAll call current index ts x.toProgress).events) := by
  induction ts generalizing x
  case nil =>
    simp only [takeAll, Query.takeAll, after_nil]
    rfl
  case cons t ts hi =>
    simp only [Query.takeAll, clear_append] at hc ⊢
    generalize hw : (r.query first).take call current index t x.toProgress = w at hc ⊢
    have hstep := take_follows hf hx (hw ▸ hc.left)
    have hx' : r.Reads first (r.after x w.progress w.events) := hx.after
    rw [takeAll, hstep, hw]
    simp only [bind, Except.bind, hi hx' hc.right, after_append]
    rfl

theorem token_eq (h : r.tokens[index]? = some current) : r.token index = .ok current := by
  simp [token, h]

theorem after_visited {rule : RuleIndex} {entry : Nat} {s : StateId} :
    r.after x g (.visited rule entry s index :: events) =
      r.after x.visit g events := by
  simp [after, Session.visit, FirstSetCache.filled, Event.consulted?, Event.visited?, Event.asked?,
    Candidates.observe, List.filterMap_cons, List.countP_cons]
  omega

theorem walkPlaces_follows (hf : r.Follows first enter call) (hx : r.Reads first x)
    (hc : Clear
      ((r.query first).walkPlaces call f fresh pending visited ends x.toProgress).events) :
    r.walkPlaces enter fresh pending visited ends x =
      .ok (((r.query first).walkPlaces call f fresh pending visited ends x.toProgress).ends,
        r.after x
          ((r.query first).walkPlaces call f fresh pending visited ends x.toProgress).progress
          ((r.query first).walkPlaces call f fresh pending visited ends x.toProgress).events) := by
  induction fresh generalizing pending visited ends x
  all_goals
    revert hc
    generalize hw : (r.query first).walkPlaces call f _ pending visited ends x.toProgress = w
    cases Query.visiting_of_eq hw <;> intro hc
  case zero.done hn =>
    have hn : r.nextPlace? visited pending = none := hn
    simp only [walkPlaces, hn, after_nil]
    rfl
  case succ.done hn =>
    have hn : r.nextPlace? visited pending = none := hn
    simp only [walkPlaces, hn, after_nil]
    rfl
  case succ.stop fresh hi p s rest current after hn ht hs ha =>
    have hn : r.nextPlace? visited pending = some (p, s, rest) := hn
    have hrest := hi (x := x.visit) hx (ha ▸ (clear_cons.mp hc).right)
    simp only [walkPlaces, hn, token_eq ht, hs, if_true, bind, Except.bind, after_visited]
    rw [hrest, ha]
    rfl
  case succ.step fresh hi p s rest current step after hn ht hs hst ha =>
    have hn : r.nextPlace? visited pending = some (p, s, rest) := hn
    obtain ⟨hcs, hca⟩ := clear_append.mp (clear_cons.mp hc).right
    have hstep : r.takeAll enter current p.index s.transitions x.visit =
        .ok (step.places, r.after x.visit step.progress step.events) :=
      hst ▸ takeAll_follows hf (x := x.visit) hx (hst ▸ hcs)
    have hx' : r.Reads first (r.after x.visit step.progress step.events) := Reads.after hx
    have hrest := hi hx' (ha ▸ hca)
    rw [List.cons_append, after_visited, ← after_append (g := step.progress)]
    simp only [walkPlaces, hn, token_eq ht, hs, hstep, bind, Except.bind]
    rw [ha]
    exact hrest
  all_goals simp [Clear, Event.IsFault] at hc

theorem after_consulted : r.after x g (.consulted start :: events) =
    r.after (x.consult r.automaton start).snd g events := by
  simp [after, Session.consult, FirstSetCache.getOrCompute, FirstSetCache.filled, Event.consulted?,
    Event.visited?, Event.asked?, Candidates.observe, List.filterMap_cons]

theorem after_walked {rule : RuleIndex} :
    r.after x g (.walked rule index :: events) = r.after x g events := by
  simp [after, FirstSetCache.filled, Event.consulted?, Event.visited?, Event.asked?,
    Candidates.observe, List.filterMap_cons]

-- A rule that is entered at the caret adds candidates and nothing else.
theorem after_offersOf {stack : List RuleIndex} {rule : RuleIndex} {sets : FirstSets} :
    r.after x g (Query.offersOf (stack ++ [rule]) sets) =
      { x with
        toProgress := g
        candidates := x.candidates.offerAll r.settings rule (stack ++ [rule]) sets } := by
  have hcount : (Query.offersOf (stack ++ [rule]) sets).countP Event.visited? = 0 := by
    simp [Query.offersOf, Event.visited?]
  have hasked : (Query.offersOf (stack ++ [rule]) sets).filterMap Event.asked? = [] := by
    simp [Query.offersOf, Event.asked?]
  have hconsulted : (Query.offersOf (stack ++ [rule]) sets).filterMap Event.consulted? = [] := by
    simp [Query.offersOf, Event.consulted?]
  simp [after, FirstSetCache.filled, hcount, hasked, hconsulted, Candidates.offerAll_eq]

theorem rejects_eq (first : StateId → FirstSets) {sets : FirstSets}
    (h : r.tokens[index]? = some current) :
    r.rejects sets index = .ok ((r.query first).rejects sets current) := by
  simp only [rejects, token_eq h, Query.rejects, query, Bool.true_and, bind, Except.bind, pure,
    Except.pure]
  cases sets.combined.contains TokenType.epsilon <;> rfl

theorem Reads.fst_consult (h : r.Reads first x) :
    (x.consult r.automaton start).fst = first start :=
  h start

theorem Reads.snd_consult (h : r.Reads first x) : r.Reads first (x.consult r.automaton start).snd :=
  fun start => FirstSetCache.lookup_add.trans (h start)

theorem enterRule_follows (depth : Nat) :
    r.Follows first (r.enterRule depth) ((r.query first).enterRule depth) := by
  induction depth
  all_goals
    intro start i x hx
    generalize hw : (r.query first).enterRule _ start i x.toProgress = w
    cases Query.entering_of_eq hw <;> intro hc
  case succ.absent hs =>
    have hs : r.automaton.state? start = none := hs
    simp only [enterRule, hs, after_nil]
    rfl
  case succ.known hs hk =>
    have hs : r.automaton.state? start = some _ := hs
    simp only [enterRule, hs, hk, after_nil]
    rfl
  case succ.atCaret s hs hk hi =>
    have hs : r.automaton.state? start = some s := hs
    have hi : r.caret ≤ i := hi
    rw [after_consulted, after_offersOf]
    simp only [enterRule, hs, hk, if_pos hi, hx.fst_consult, Session.push, Session.pop,
      Progress.pop_push]
    rfl
  case succ.rejected s current hs hk hi ht hj =>
    have hs : r.automaton.state? start = some s := hs
    have hi : ¬r.caret ≤ i := Nat.not_le.mpr hi
    have hj : (r.query first).rejects (first start) current = true := hj
    rw [after_consulted]
    simp only [enterRule, hs, hk, if_neg hi, hx.fst_consult, rejects_eq first ht, hj,
      bind, Except.bind, if_true, Session.push, Session.pop, Progress.pop_push]
    exact congrArg (fun x => Except.ok ([], x)) after_nil.symm
  case succ.walked depth hd s current w hs hk hi ht hj hwalk =>
    have hs : r.automaton.state? start = some s := hs
    have hi : ¬r.caret ≤ i := Nat.not_le.mpr hi
    have hj : (r.query first).rejects (first start) current = false := hj
    have hc : Clear w.events := (clear_cons.mp (clear_cons.mp hc).right).right
    obtain ⟨x', hcons⟩ : ∃ x', (x.consult r.automaton start).snd = x' := ⟨_, rfl⟩
    have hx' : r.Reads first x' := hcons ▸ hx.snd_consult
    have hinner : r.walkRule (r.enterRule depth) start i ((x'.push s.rule).remember s.rule i []) =
        .ok (w.ends, r.after x' w.progress w.events) := by
      subst hwalk hcons
      exact walkPlaces_follows (x := (Session.push _ s.rule).remember s.rule i []) hd hx' hc
    rw [after_consulted, after_walked, hcons]
    simp only [enterRule, hs, hk, if_neg hi, hx.fst_consult, rejects_eq first ht, hj,
      bind, Except.bind, hcons, hinner]
    rfl
  all_goals simp [Clear, Event.IsFault] at hc

end Request
end Caret
