import Caret.Serial.Automaton
import Caret.Serial.Completion
import Caret.Serial.Text
import Mathlib

-- What is written is read back. Offsets, lines, indices and states are natural numbers here but
-- have 64 bits when they are written; all that is asked of a value is that they fit.
--
-- Mathlib is imported whole for `Int.toInt?_repr`, which no narrower module of it provides.
namespace Caret

open Serial

namespace Serial

section Numbers

theorem intBetween?_eq {min max n : Int} (hmin : min ≤ n) (hmax : n ≤ max) :
    intBetween? min max (.int n) = some n := by
  simp [intBetween?, hmin, hmax]

theorem decode_nat {n : Nat} (h : n ≤ maxOffset) : decode (encode n) = some n := by
  have hmax : (n : Int) ≤ UInt64.size - 1 := by
    simp only [maxOffset, UInt64.size] at h ⊢
    omega
  change (intBetween? 0 (UInt64.size - 1) (.int n)).map Int.toNat = _
  rw [intBetween?_eq (Int.natCast_nonneg n) hmax]
  rfl

@[simp] theorem decode_int32 (n : Int32) : decode (encode n) = some n := by
  change (intBetween? _ _ (.int n.toInt)).map Int32.ofInt = _
  rw [intBetween?_eq n.minValue_le_toInt n.toInt_le, Option.map_some, Int32.ofInt_toInt]

@[simp] theorem decode_uint32 (n : UInt32) : decode (encode n) = some n := by
  have hmax : (n.toNat : Int) ≤ UInt32.size - 1 := by
    have := n.toNat_lt
    simp only [UInt32.size]
    omega
  change (intBetween? 0 (UInt32.size - 1) (.int n.toNat)).map (fun n => UInt32.ofNat n.toNat) = _
  rw [intBetween?_eq (Int.natCast_nonneg _) hmax]
  simp

@[simp] theorem decode_uint64 (n : UInt64) : decode (encode n) = some n := by
  have hmax : (n.toNat : Int) ≤ UInt64.size - 1 := by
    have := n.toNat_lt
    simp only [UInt64.size]
    omega
  change (intBetween? 0 (UInt64.size - 1) (.int n.toNat)).map (fun n => UInt64.ofNat n.toNat) = _
  rw [intBetween?_eq (Int.natCast_nonneg _) hmax]
  simp

end Numbers

@[simp] theorem decode_string (s : String) : decode (encode s) = some s :=
  rfl

section Containers

variable {α β : Type} [Serial α] [Serial β]

theorem mapM_map_eq_some {γ δ : Type} {f : γ → δ} {g : δ → Option γ} {cs : List γ}
    (h : ∀ c ∈ cs, g (f c) = some c) : (cs.map f).mapM g = some cs := by
  induction cs
  case nil => rfl
  case cons c cs hi =>
    have ⟨hc, hcs⟩ := List.forall_mem_cons.mp h
    simp [hc, hi hcs]

theorem decode_list {as : List α} (h : ∀ a ∈ as, decode (encode a) = some a) :
    decode (encode as) = some as :=
  mapM_map_eq_some h

theorem decode_of_ne_null {j : Json} (hj : j ≠ .null) :
    (decode j : Option (Option α)) = (decode j).map some := by
  cases j
  case null => contradiction
  all_goals rfl

-- What is there must not be written as if it were absent.
theorem decode_option {o : Option α} (hn : ∀ a : α, encode a ≠ .null)
    (h : ∀ a ∈ o, decode (encode a) = some a) : decode (encode o) = some o := by
  cases o
  case none => rfl
  case some a =>
    calc decode (encode a)
      _ = (decode (encode a)).map some := decode_of_ne_null (hn a)
      _ = some (some a)                := by rw [h a rfl, Option.map_some]

@[simp] theorem keyOf?_repr (n : Int) : keyOf? n.repr = some n := by
  simp [keyOf?, Int.toInt?_repr]

theorem decodeMap_encodeMap {key : α → Int} {entries : List (α × β)}
    (hk : ∀ e ∈ entries, decode (.int (key e.fst)) = some e.fst)
    (hv : ∀ e ∈ entries, decode (encode e.snd) = some e.snd) :
    decodeMap (encodeMap key entries) = some entries := by
  refine mapM_map_eq_some fun e hm => ?_
  simp [hk e hm, hv e hm]

end Containers

end Serial

section Text

structure Position.Fits (p : Position) : Prop where
  line      : p.line ≤ maxOffset
  character : p.character ≤ maxOffset

structure TextRange.Fits (r : TextRange) : Prop where
  start : r.start.Fits
  stop  : r.stop.Fits

structure LineRegion.Fits (r : LineRegion) : Prop where
  offset : r.offset ≤ maxOffset
  length : r.length ≤ maxOffset

def Change.Fits (c : Change) : Prop :=
  ∀ r ∈ c.range, r.Fits

theorem Position.Fits.returns {p : Position} (h : p.Fits) : decode (encode p) = some p := by
  change (do return (⟨← decode (encode p.line), ← decode (encode p.character)⟩ : Position)) = _
  simp [decode_nat h.line, decode_nat h.character]

theorem TextRange.Fits.returns {r : TextRange} (h : r.Fits) : decode (encode r) = some r := by
  change (do return (⟨← decode (encode r.start), ← decode (encode r.stop)⟩ : TextRange)) = _
  simp [h.start.returns, h.stop.returns]

theorem Newline.returns (n : Newline) : decode (encode n) = some n := by
  cases n <;> rfl

theorem LineRegion.Fits.returns {r : LineRegion} (h : r.Fits) : decode (encode r) = some r := by
  change (do return (⟨← decode (encode r.offset), ← decode (encode r.length)⟩ : LineRegion)) = _
  simp [decode_nat h.offset, decode_nat h.length]

theorem Change.Fits.returns {c : Change} (h : c.Fits) : decode (encode c) = some c := by
  have hrange : decode (encode c.range) = some c.range :=
    decode_option (fun _ => nofun) fun r hr => (h r hr).returns
  change (do return (⟨← decode (encode c.range), ← decode (encode c.text)⟩ : Change)) = _
  simp [hrange]

end Text

section Automata

structure Token.Fits (t : Token) : Prop where
  start  : t.start ≤ maxOffset
  line   : t.line ≤ maxOffset
  column : t.column ≤ maxOffset

def Label.Fits : Label → Prop
  | .rule index follow => index ≤ maxOffset ∧ follow ≤ maxOffset
  | _                  => True

@[mk_iff]
structure Transition.Fits (t : Transition) : Prop where
  target : t.target ≤ maxOffset
  label  : t.label.Fits

@[mk_iff]
structure State.Fits (s : State) : Prop where
  id          : s.id ≤ maxOffset
  rule        : s.rule ≤ maxOffset
  transitions : ∀ t ∈ s.transitions, t.Fits

@[mk_iff]
structure Rule.Fits (r : Rule) : Prop where
  start : r.start ≤ maxOffset
  stop  : r.stop ≤ maxOffset

@[mk_iff]
structure Automaton.Fits (a : Automaton) : Prop where
  states : ∀ s ∈ a.states, s.Fits
  rules  : ∀ r ∈ a.rules, r.Fits

theorem Interval.returns (i : Interval) : decode (encode i) = some i := by
  change (do return (⟨← decode (encode i.start), ← decode (encode i.stop)⟩ : Interval)) = _
  simp

theorem IntervalSet.returns (s : IntervalSet) : decode (encode s) = some s := by
  change (do return (⟨← decode (encode s.intervals)⟩ : IntervalSet)) = _
  simp [decode_list fun i _ => Interval.returns i]

theorem Token.Fits.returns {t : Token} (h : t.Fits) : decode (encode t) = some t := by
  change (do return (⟨← decode (encode t.type), ← decode (encode t.text), ← decode (encode t.start),
    ← decode (encode t.line), ← decode (encode t.column)⟩ : Token)) = _
  simp [decode_nat h.start, decode_nat h.line, decode_nat h.column]

theorem Vocabulary.returns (v : Vocabulary) : decode (encode v) = some v := by
  have hnames (names : List (Option String)) : decode (encode names) = some names :=
    decode_list fun _ _ => decode_option (fun _ => nofun) fun s _ => decode_string s
  change (do return (⟨← decode (encode v.literals), ← decode (encode v.symbols)⟩ : Vocabulary)) = _
  simp [hnames]

theorem StateKind.returns (k : StateKind) : decode (encode k) = some k := by
  cases k <;> rfl

theorem Label.Fits.returns {l : Label} (h : l.Fits) : decode (encode l) = some l := by
  cases l
  case epsilon  => rfl
  case wildcard => rfl
  case atom type =>
    change (decode (encode type)).map Label.atom = _
    simp
  case set types =>
    change (decode (encode types)).map Label.set = _
    simp [types.returns]
  case notSet types =>
    change (decode (encode types)).map Label.notSet = _
    simp [types.returns]
  case predicate id =>
    change (decode (encode id)).map Label.predicate = _
    simp
  case rule index follow =>
    change (do return Label.rule (← decode (encode index)) (← decode (encode follow))) = _
    simp [decode_nat h.left, decode_nat h.right]

theorem Transition.Fits.returns {t : Transition} (h : t.Fits) : decode (encode t) = some t := by
  change (do return (⟨← decode (encode t.target), ← decode (encode t.label)⟩ : Transition)) = _
  simp [decode_nat h.target, h.label.returns]

theorem State.Fits.returns {s : State} (h : s.Fits) : decode (encode s) = some s := by
  change (do return (⟨← decode (encode s.id), ← decode (encode s.kind), ← decode (encode s.rule),
    ← decode (encode s.transitions)⟩ : State)) = _
  simp [decode_nat h.id, s.kind.returns, decode_nat h.rule,
    decode_list fun t ht => (h.transitions t ht).returns]

theorem Rule.Fits.returns {r : Rule} (h : r.Fits) : decode (encode r) = some r := by
  change (do return (⟨← decode (encode r.name), ← decode (encode r.start),
    ← decode (encode r.stop)⟩ : Rule)) = _
  simp [decode_nat h.start, decode_nat h.stop]

theorem AutomatonId.returns (id : AutomatonId) : decode (encode id) = some id := by
  change (decode (encode id.raw)).map AutomatonId.mk = _
  simp

theorem Automaton.Fits.returns {a : Automaton} (h : a.Fits) : decode (encode a) = some a := by
  change (do return (⟨← decode (encode a.id), ← decode (encode a.states), ← decode (encode a.rules),
    ← decode (encode a.vocabulary), ← decode (encode a.maxType)⟩ : Automaton)) = _
  simp [a.id.returns, decode_list fun s hs => (h.states s hs).returns,
    decode_list fun r hr => (h.rules r hr).returns, a.vocabulary.returns]

end Automata

section Completion

-- Only the indices of rules are counts; token types are not.
def Candidates.Fits (c : Candidates) : Prop :=
  ∀ e ∈ c.rules, e.fst ≤ maxOffset ∧ ∀ r ∈ e.snd, r ≤ maxOffset

def Settings.Fits (s : Settings) : Prop :=
  ∀ r ∈ s.preferred, r ≤ maxOffset

theorem Candidates.Fits.returns {c : Candidates} (h : c.Fits) : decode (encode c) = some c := by
  have htokens : decodeMap (encodeMap Int32.toInt c.tokens) = some c.tokens :=
    decodeMap_encodeMap (fun e _ => decode_int32 e.fst) fun e _ =>
      decode_list fun t _ => decode_int32 t
  have hrules : decodeMap (encodeMap Int.ofNat c.rules) = some c.rules :=
    decodeMap_encodeMap (fun e he => decode_nat (h e he).left) fun e he =>
      decode_list fun r hr => decode_nat ((h e he).right r hr)
  change (do return (⟨← decodeMap (encodeMap Int32.toInt c.tokens),
    ← decodeMap (encodeMap Int.ofNat c.rules)⟩ : Candidates)) = _
  simp [htokens, hrules]

section Ascending

variable {α : Type} [LT α] [DecidableLT α] {x y : α} {xs ys : List α}

theorem mem_insertAscending [Std.Trichotomous (α := α) (· < ·)] :
    x ∈ insertAscending y ys ↔ x = y ∨ x ∈ ys := by
  induction ys
  case nil => simp [insertAscending]
  case cons z zs hi =>
    unfold insertAscending
    split
    case isTrue => simp
    case isFalse hyz =>
      split
      case isTrue => simp [hi, or_left_comm]
      case isFalse hzy =>
        cases Std.Trichotomous.trichotomous y z hyz hzy
        simp

theorem mem_foldl_insertAscending [Std.Trichotomous (α := α) (· < ·)] :
    x ∈ xs.foldl (fun ys x => insertAscending x ys) ys ↔ x ∈ ys ∨ x ∈ xs := by
  induction xs generalizing ys
  case nil => simp
  case cons z zs hi => simp [hi, mem_insertAscending, or_left_comm, or_assoc]

theorem insertAscending_of_forall_lt [Std.Asymm (α := α) (· < ·)] (h : ∀ y ∈ ys, y < x) :
    insertAscending x ys = ys ++ [x] := by
  induction ys
  case nil => rfl
  case cons y ys hi =>
    have ⟨hy, hys⟩ := List.forall_mem_cons.mp h
    simp [insertAscending, Std.Asymm.asymm y x hy, hy, hi hys]

-- Values that come in ascending order are put one after the other.
theorem foldl_insertAscending [Std.Asymm (α := α) (· < ·)] (h : (ys ++ xs).Pairwise (· < ·)) :
    xs.foldl (fun ys x => insertAscending x ys) ys = ys ++ xs := by
  induction xs generalizing ys
  case nil => simp
  case cons x xs hi =>
    have ⟨_, _, hlt⟩ := List.pairwise_append.mp h
    have hx : ∀ y ∈ ys, y < x := fun y hy => hlt y hy x List.mem_cons_self
    rw [List.foldl_cons, insertAscending_of_forall_lt hx, hi (by simpa using h)]
    simp

end Ascending

namespace Settings

variable {s : Settings}

-- Both lists are in the order in which settings keep them.
structure Ascending (s : Settings) : Prop where
  ignored   : s.ignored.Pairwise (· < ·)
  preferred : s.preferred.Pairwise (· < ·)

theorem ignoreAll_eq (types : List TokenType) : s.ignoreAll types =
    { s with ignored := types.foldl (fun ts t => insertAscending t ts) s.ignored } := by
  induction types generalizing s
  case nil => rfl
  case cons t ts hi => exact hi

theorem preferAll_eq (rules : List RuleIndex) : s.preferAll rules =
    { s with preferred := rules.foldl (fun rs r => insertAscending r rs) s.preferred } := by
  induction rules generalizing s
  case nil => rfl
  case cons r rs hi => exact hi

theorem Fits.decode_eq (h : s.Fits) :
    decode (encode s) = some ((empty.ignoreAll s.ignored).preferAll s.preferred) := by
  have hignored : decode (encode s.ignored) = some s.ignored :=
    decode_list fun t _ => decode_int32 t
  have hpreferred : decode (encode s.preferred) = some s.preferred :=
    decode_list fun r hr => decode_nat (h r hr)
  change (do
    let ignored   ← decode (encode s.ignored)
    let preferred ← decode (encode s.preferred)
    return (empty.ignoreAll ignored).preferAll preferred) = _
  simp [hignored, hpreferred]

theorem Fits.returns (h : s.Fits) (ha : s.Ascending) : decode (encode s) = some s := by
  rw [h.decode_eq, ignoreAll_eq, preferAll_eq]
  simp [empty, foldl_insertAscending, ha.ignored, ha.preferred]

-- In whatever order the members are written, the same ones are read.
theorem Fits.exists_decode (h : s.Fits) : ∃ s' : Settings, decode (encode s) = some s' ∧
    (∀ t, s'.isIgnored t = s.isIgnored t) ∧ ∀ r, s'.isPreferred r = s.isPreferred r := by
  refine ⟨_, h.decode_eq, fun t => ?_, fun r => ?_⟩
  all_goals
    rw [ignoreAll_eq, preferAll_eq]
    simp [isIgnored, isPreferred, empty, mem_foldl_insertAscending]

end Settings

end Completion

-- The entries of candidates and the members of settings may be written in any order.
theorem Serial.round_trips :
    (∀ p : Position, p.Fits → decode (encode p) = some p) ∧
    (∀ r : TextRange, r.Fits → decode (encode r) = some r) ∧
    (∀ c : Change, c.Fits → decode (encode c) = some c) ∧
    (∀ n : Newline, decode (encode n) = some n) ∧
    (∀ r : LineRegion, r.Fits → decode (encode r) = some r) ∧
    (∀ i : Interval, decode (encode i) = some i) ∧
    (∀ s : IntervalSet, decode (encode s) = some s) ∧
    (∀ t : Token, t.Fits → decode (encode t) = some t) ∧
    (∀ v : Vocabulary, decode (encode v) = some v) ∧
    (∀ k : StateKind, decode (encode k) = some k) ∧
    (∀ l : Label, l.Fits → decode (encode l) = some l) ∧
    (∀ t : Transition, t.Fits → decode (encode t) = some t) ∧
    (∀ s : State, s.Fits → decode (encode s) = some s) ∧
    (∀ a : Automaton, a.Fits → decode (encode a) = some a) ∧
    (∀ s : Settings, s.Fits → (s.Ascending → decode (encode s) = some s) ∧
      ∃ s' : Settings, decode (encode s) = some s' ∧ (∀ t, s'.isIgnored t = s.isIgnored t) ∧
        ∀ r, s'.isPreferred r = s.isPreferred r) ∧
    ∀ c : Candidates, c.Fits → decode (encode c) = some c :=
  ⟨fun _ => Position.Fits.returns, fun _ => TextRange.Fits.returns, fun _ => Change.Fits.returns,
    Newline.returns, fun _ => LineRegion.Fits.returns, Interval.returns, IntervalSet.returns,
    fun _ => Token.Fits.returns, Vocabulary.returns, StateKind.returns,
    fun _ => Label.Fits.returns, fun _ => Transition.Fits.returns, fun _ => State.Fits.returns,
    fun _ => Automaton.Fits.returns, fun _ h => ⟨h.returns, h.exists_decode⟩,
    fun _ => Candidates.Fits.returns⟩

-- A rule with a transition of each kind. One of its sets of token types is as no insertion would
-- leave it, and a call goes on in the state with the largest number that there is.
def assorted : Automaton where
  id         := ⟨0x8000000000000001⟩
  states     := [
    ⟨0, .ruleStart, 0, [⟨1, .epsilon⟩, ⟨1, .atom (-1)⟩, ⟨1, .set ⟨[⟨5, 3⟩, ⟨1, 2⟩]⟩⟩,
      ⟨1, .notSet .empty⟩, ⟨1, .wildcard⟩, ⟨0, .rule 0 maxOffset⟩, ⟨1, .predicate 7⟩]⟩,
    ⟨1, .ruleStop, 0, []⟩
  ]
  rules      := [⟨"all", 0, 1⟩]
  vocabulary := ⟨[none, some "a"], [some "null"]⟩
  maxType    := -5

theorem assorted_fits : assorted.Fits := by
  simp [Automaton.fits_iff, State.fits_iff, Transition.fits_iff, Rule.fits_iff, Label.Fits,
    assorted, maxOffset]

-- Tokens with a negative type, and so with a negative key, among them.
def signedKeys : Candidates where
  tokens := [(-1, [2]), (3, [])]
  rules  := [(1, [0])]

-- Members neither in order nor written once.
def unordered : Settings where
  ignored   := [3, -1, 3]
  preferred := [2, 0]

theorem Serial.round_trips_assorted :
    assorted.Fits ∧ decode (encode assorted) = some assorted ∧
    signedKeys.Fits ∧ decode (encode signedKeys) = some signedKeys ∧
    unordered.Fits ∧ ∃ s : Settings, decode (encode unordered) = some s ∧
      s.isIgnored (-1) ∧ s.isPreferred 2 := by
  obtain ⟨_, _, _, _, _, _, _, _, _, _, _, _, _, hautomaton, hsettings, hcandidates⟩ := round_trips
  have hc : signedKeys.Fits := by simp [Candidates.Fits, signedKeys, maxOffset]
  have hs : unordered.Fits := by simp [Settings.Fits, unordered, maxOffset]
  obtain ⟨_, s, hdecode, hignored, hpreferred⟩ := hsettings _ hs
  refine ⟨assorted_fits, hautomaton _ assorted_fits, hc, hcandidates _ hc, hs, s, hdecode, ?_, ?_⟩
  · rw [hignored]
    decide
  · rw [hpreferred]
    decide

end Caret
