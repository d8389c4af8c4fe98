import Caret.Proofs.Completion.Soundness

-- A cache of first sets is never seen from outside. Whatever requests share it, and whatever is
-- dropped between them, what it holds is what would be computed anew, and so a request is answered
-- as with an empty cache.
namespace Caret

-- Automata that their identities tell apart.
structure Family where
  Member : Automaton → Prop
  unique : ∀ {a b}, Member a → Member b → a.id = b.id → a = b

-- What can be asked of a cache that is shared for the automata of a family.
inductive CacheCall (F : Family)
  | getOrCompute (a : Automaton) (ha : F.Member a) (start : StateId)
  | suggest (a : Automaton) (ha : F.Member a) (s : Settings) (w : Window) (startRule : RuleIndex)
    (e : Evaluator)
  | invalidate (id : AutomatonId)
  | clear

namespace FirstSetCache

def after {F : Family} (c : FirstSetCache) : CacheCall F → FirstSetCache
  | .getOrCompute a _ start      => (c.getOrCompute a start).snd
  | .suggest a _ s w startRule e => (suggest c a s w startRule e).snd
  | .invalidate id               => c.invalidate id
  | .clear                       => .empty

def run {F : Family} (c : FirstSetCache) (calls : List (CacheCall F)) : FirstSetCache :=
  calls.foldl after c

-- Every entry was computed from the automaton with its identity, and there is one for each key.
structure Coherent (F : Family) (c : FirstSetCache) : Prop where
  keys  : (c.entries.map Prod.fst).Nodup
  entry : ∀ id start sets, ((id, start), sets) ∈ c.entries →
    ∃ a, F.Member a ∧ a.id = id ∧ sets = .compute a start

variable {F : Family} {c : FirstSetCache} {a : Automaton} {id id' : AutomatonId}
  {start start' : StateId} {sets : FirstSets} {events : List Event}

theorem mem_entries_of_get? (h : c.get? id start = some sets) :
    ((id, start), sets) ∈ c.entries :=
  mem_of_lookup h

theorem get?_eq_none (h : c.get? id start = none) : (id, start) ∉ c.entries.map Prod.fst :=
  not_mem_keys_of_lookup h

theorem filled_consulted :
    c.filled a (events ++ [.consulted start]) = (c.filled a events).add a start := by
  simp [filled, Event.consulted?]

theorem get?_invalidate :
    (c.invalidate id).get? id' start = if id' = id then none else c.get? id' start := by
  obtain ⟨entries⟩ := c
  induction entries
  case nil => simp [invalidate, get?]
  case cons entry entries hi =>
    obtain ⟨⟨i, start'⟩, sets⟩ := entry
    simp only [invalidate, List.filter_cons, get?_cons] at hi ⊢
    split
    case isTrue hne => grind [get?_cons]
    case isFalse he => grind

namespace Coherent

theorem empty : Coherent F .empty where
  keys  := .nil
  entry := by simp [FirstSetCache.empty]

theorem add (h : c.Coherent F) (ha : F.Member a) (start : StateId) :
    (c.add a start).Coherent F := by
  unfold FirstSetCache.add
  split
  case h_1 => exact h
  case h_2 hn =>
    constructor
    case keys => exact List.nodup_cons.mpr ⟨get?_eq_none hn, h.keys⟩
    case entry =>
      intro id start' sets hm
      rcases List.mem_cons.mp hm with he | hm
      · cases he
        exact ⟨a, ha, rfl, rfl⟩
      · exact h.entry id start' sets hm

theorem filled (h : c.Coherent F) (ha : F.Member a) (events : List Event) :
    (c.filled a events).Coherent F := by
  unfold FirstSetCache.filled
  induction events.filterMap Event.consulted? generalizing c
  case nil => exact h
  case cons start starts hi => exact hi (h.add ha start)

theorem invalidate (h : c.Coherent F) (id : AutomatonId) : (c.invalidate id).Coherent F where
  keys  := h.keys.sublist (List.filter_sublist.map _)
  entry := fun id start sets hm => h.entry id start sets (List.mem_filter.mp hm).left

theorem after (h : c.Coherent F) (call : CacheCall F) : (c.after call).Coherent F := by
  cases call
  case getOrCompute a ha start => exact h.add ha start
  case suggest ha _ _ _ _      =>
    rw [FirstSetCache.after, suggest_eq]
    exact h.filled ha _
  case invalidate id           => exact h.invalidate id
  case clear                   => exact empty

theorem run (h : c.Coherent F) (calls : List (CacheCall F)) : (c.run calls).Coherent F := by
  induction calls generalizing c
  case nil => exact h
  case cons call calls hi => exact hi (h.after call)

theorem faithful (h : c.Coherent F) (ha : F.Member a) : c.Faithful a := by
  intro start sets hs
  have ⟨a', ha', hid, he⟩ := h.entry a.id start sets (mem_entries_of_get? hs)
  exact F.unique ha' ha hid ▸ he

end Coherent

-- A walk reads the same from every faithful cache.
theorem Faithful.ofWindow (h : c.Faithful a) (w : Window) (e : Evaluator) :
    Query.ofWindow a w e c = Query.ofWindow a w e .empty := by
  have hlookup : c.lookup a = empty.lookup a :=
    funext fun start => (h.lookup start).trans (faithful_empty.lookup start).symm
  simp only [Query.ofWindow, hlookup]

end FirstSetCache

open FirstSetCache in
theorem cache_transparent (F : Family) (calls : List (CacheCall F)) :
    (empty.run calls).Coherent F ∧
    (∀ id id' start, ((empty.run calls).invalidate id).get? id' start =
      if id' = id then none else (empty.run calls).get? id' start) ∧
    ∀ a, F.Member a →
      (∀ start, ((empty.run calls).getOrCompute a start).fst = .compute a start ∧
        ((empty.run calls).getOrCompute a start).snd.get? a.id start = some (.compute a start)) ∧
      ∀ s w startRule e,
        (suggest (empty.run calls) a s w startRule e).fst = (suggest .empty a s w startRule e).fst ∧
        -- The walk asks the cache as it is by then.
        ∀ before start after,
          (Query.ofWindow a w e (empty.run calls)).events startRule =
            before ++ .consulted start :: after →
          ((empty.run calls).filled a before).getOrCompute a start =
            (.compute a start, (empty.run calls).filled a (before ++ [.consulted start])) := by
  have hc : (empty.run calls).Coherent F := Coherent.empty.run calls
  refine ⟨hc, fun id id' start => get?_invalidate, fun a ha => ?_⟩
  have hf := hc.faithful ha
  refine ⟨fun start => ⟨hf.lookup start, ?_⟩,
    fun s w startRule e => ⟨?_, fun before start _ _ => ?_⟩⟩
  · exact get?_add.trans (congrArg some (hf.lookup start))
  · simp only [suggest_eq, hf.ofWindow]
  · exact Prod.ext (lookup_filled.trans (hf.lookup start)) filled_consulted.symm

-- One automaton, asked for suggestions and for a first set.
def bracketCalls : List (CacheCall ⟨(· = brackets), fun ha hb _ => ha.trans hb.symm⟩) :=
  [.suggest brackets rfl .empty afterName 0 .always, .invalidate ⟨1⟩, .getOrCompute brackets rfl 4]

theorem cache_transparent_brackets :
    (FirstSetCache.empty.run bracketCalls).size = 3 ∧
      (suggest (FirstSetCache.empty.run bracketCalls) brackets .empty afterName 0 .always).fst =
        (suggest .empty brackets .empty afterName 0 .always).fst := by
  refine ⟨by decide +kernel, ?_⟩
  have ⟨_, _, h⟩ := cache_transparent _ bracketCalls
  exact ((h brackets rfl).right .empty afterName 0 .always).left

end Caret
