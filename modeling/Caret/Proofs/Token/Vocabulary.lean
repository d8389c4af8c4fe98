import Caret.Token.Vocabulary
import Mathlib.Algebra.Group.Nat.Defs
import Mathlib.Tactic.ByContra

-- Names that are given one after another. Both tables always have the same places, a token type has
-- the names that it was given last, and a name leads to the first token type that has it.
namespace Caret

-- The names that a token type is given.
structure Naming where
  type    : TokenType
  literal : Option String
  symbol  : Option String

namespace Vocabulary

def defineAll (v : Vocabulary) (ns : List Naming) : Vocabulary :=
  ns.foldl (fun v n => v.define n.type n.literal n.symbol) v

-- The least token type with a name.
structure IsFirst (names : TokenType → Option String) (name : String) (t : TokenType) : Prop where
  named : names t = some name
  least : ∀ u, names u = some name → t ≤ u

-- Literals come before symbols.
inductive LeadsTo (v : Vocabulary) (name : String) : Option TokenType → Prop
  | literal {t : TokenType} (h : IsFirst v.literal? name t) : LeadsTo v name (some t)
  | symbol {t : TokenType} (hl : ∀ u, v.literal? u ≠ some name) (h : IsFirst v.symbol? name t) :
    LeadsTo v name (some t)
  | nowhere (hl : ∀ u, v.literal? u ≠ some name) (hs : ∀ u, v.symbol? u ≠ some name) :
    LeadsTo v name none

-- The largest of zero and the token types that are named.
structure IsLargest (ns : List Naming) (t : TokenType) : Prop where
  bound   : ∀ n ∈ ns, n.type ≤ t
  reached : (∀ n ∈ ns, n.type ≤ 0) ∧ t = 0 ∨ 0 < t ∧ ∃ n ∈ ns, n.type = t

variable {t u : TokenType} {i j : Nat}

theorem toNat_maxValue : Int32.maxValue.toInt.toNat = 2 ^ 31 - 1 := by
  decide

theorem slot?_eq_some : slot? t = some i ↔ 0 < i ∧ t.toInt = i := by
  by_cases h : 0 < t.toInt
  case pos =>
    rw [slot?, if_pos h, Option.some.injEq]
    omega
  case neg =>
    simp only [slot?, if_neg h, reduceCtorEq, false_iff]
    omega

theorem slot?_eq_none : slot? t = none ↔ t.toInt ≤ 0 := by
  simp [slot?]

theorem slot?_ofNat (h : 0 < i) (hi : i < 2 ^ 31) : slot? (Int32.ofNat i) = some i :=
  slot?_eq_some.mpr ⟨h, Int32.toInt_ofNat_of_lt hi⟩

theorem eq_of_slot? (h : slot? t = some i) (h' : slot? u = some i) : t = u :=
  Int32.toInt.inj ((slot?_eq_some.mp h).right.trans (slot?_eq_some.mp h').right.symm)

-- One of the two tables.
section Table

variable {names : List (Option String)} {name : Option String}

-- The name of a token type in a table. Literals and symbols are both read this way.
def named? (names : List (Option String)) (t : TokenType) : Option String := do
  let i ← slot? t
  let name ← names[i]?
  name

-- The table, long enough to have a place.
def enlarge (names : List (Option String)) (i : Nat) : List (Option String) :=
  if names.length ≤ i then resize (i + 1) names else names

-- The table with a name at a place.
def place (names : List (Option String)) (i : Nat) (name : Option String) : List (Option String) :=
  (enlarge names i).set i name

-- No name stands at the place of no token type, and every place is that of one.
structure Proper (names : List (Option String)) : Prop where
  reserved : names[0]?.join = none
  bound    : names.length ≤ 2 ^ 31

theorem named?_eq (h : slot? t = some i) : named? names t = names[i]?.join := by
  rw [named?, h]
  rfl

theorem named?_eq_none (h : slot? t = none) : named? names t = none := by
  rw [named?, h]
  rfl

theorem named?_nil : named? [] t = none := by
  simp [named?]

theorem named?_eq_some {name : String} :
    named? names t = some name ↔ ∃ i, slot? t = some i ∧ names[i]? = some (some name) := by
  simp [named?, Option.bind_eq_some_iff]

theorem length_enlarge : (enlarge names i).length = max names.length (i + 1) := by
  rw [enlarge]
  split
  · rw [resize, List.length_append, List.length_take, List.length_replicate]
    omega
  · omega

-- The places that are new have no names.
theorem join_getElem?_enlarge (j : Nat) : (enlarge names i)[j]?.join = names[j]?.join := by
  rw [enlarge]
  split
  case isFalse => rfl
  case isTrue hi =>
    rw [resize, List.take_of_length_le (Nat.le_succ_of_le hi)]
    by_cases hj : j < names.length
    case pos => rw [List.getElem?_append_left hj]
    case neg =>
      rw [List.getElem?_append_right (Nat.not_lt.mp hj), List.getElem?_replicate,
        List.getElem?_eq_none (Nat.not_lt.mp hj)]
      split <;> rfl

theorem length_place : (place names i name).length = max names.length (i + 1) := by
  rw [place, List.length_set, length_enlarge]

theorem join_getElem?_place (j : Nat) :
    (place names i name)[j]?.join = if j = i then name else names[j]?.join := by
  rw [place, List.getElem?_set]
  by_cases hj : j = i
  case pos =>
    rw [if_pos hj.symm, if_pos hj, length_enlarge, if_pos (by omega)]
    rfl
  case neg => rw [if_neg (Ne.symm hj), if_neg hj, join_getElem?_enlarge]

theorem Proper.place (h : Proper names) (ht : slot? t = some i) (name : Option String) :
    Proper (place names i name) where
  reserved := by
    have ⟨hpos, _⟩ := slot?_eq_some.mp ht
    rw [join_getElem?_place, if_neg (by omega), h.reserved]
  bound := by
    have ⟨_, hi⟩ := slot?_eq_some.mp ht
    have hbound := h.bound
    have hlt := t.toInt_lt
    rw [length_place]
    omega

-- The place of a name that the search finds is that of the first token type with the name.
theorem Proper.isFirst (h : Proper names) {name : String}
    (hi : names.findIdx? (· == some name) = some i) :
    i < 2 ^ 31 ∧ IsFirst (named? names) name (Int32.ofNat i) := by
  have ⟨hlt, hname, hleast⟩ := List.findIdx?_eq_some_iff_getElem.mp hi
  have hget : names[i]? = some (some name) :=
    List.getElem?_eq_some_iff.mpr ⟨hlt, beq_iff_eq.mp hname⟩
  have hpos : 0 < i := by
    by_contra hz
    have hreserved := h.reserved
    rw [← Nat.eq_zero_of_not_pos hz, hget] at hreserved
    cases hreserved
  have hbound := h.bound
  have hs := slot?_ofNat hpos (by omega)
  refine ⟨by omega, named?_eq_some.mpr ⟨i, hs, hget⟩, fun u hu => ?_⟩
  obtain ⟨j, hj, hu⟩ := named?_eq_some.mp hu
  obtain ⟨hjlt, hu⟩ := List.getElem?_eq_some_iff.mp hu
  have hle : i ≤ j := by
    by_contra hji
    exact hleast j (Nat.lt_of_not_le hji) (beq_iff_eq.mpr hu)
  rw [Int32.le_iff_toInt_le, (slot?_eq_some.mp hs).right, (slot?_eq_some.mp hj).right]
  exact Int.ofNat_le.mpr hle

theorem named?_ne {name : String} (h : names.findIdx? (· == some name) = none) (t : TokenType) :
    named? names t ≠ some name := by
  intro ht
  obtain ⟨i, _, hi⟩ := named?_eq_some.mp ht
  have hne := List.findIdx?_eq_none_iff.mp h _ (List.mem_of_getElem? hi)
  simp at hne

theorem named?_place (h : slot? t = some i) :
    named? (place names i name) u = if u = t then name else named? names u := by
  cases hs : slot? u
  case none =>
    have hu : u ≠ t := by
      rintro rfl
      cases hs.symm.trans h
    rw [named?, named?, hs, if_neg hu]
    rfl
  case some j =>
    have hj : j = i ↔ u = t := by
      refine ⟨fun hj => eq_of_slot? (hj ▸ hs) h, fun hu => ?_⟩
      rw [hu, h, Option.some.injEq] at hs
      exact hs.symm
    rw [named?_eq hs, named?_eq hs, join_getElem?_place]
    simp only [hj]

end Table

-- The tables have the same places.
structure Regular (v : Vocabulary) : Prop where
  parallel : v.literals.length = v.symbols.length
  literals : Proper v.literals
  symbols  : Proper v.symbols

-- How long the tables are after names were given: as long as the largest token type needs.
structure Spans (v : Vocabulary) (ns : List Naming) (size : Nat) : Prop where
  before : v.literals.length ≤ size
  covers : ∀ n ∈ ns, 0 < n.type.toInt → n.type.toInt < size
  needed : size = v.literals.length ∨ ∃ n ∈ ns, 0 < n.type.toInt ∧ n.type.toInt + 1 = size

theorem regular_empty : empty.Regular :=
  ⟨rfl, ⟨rfl, Nat.zero_le _⟩, ⟨rfl, Nat.zero_le _⟩⟩

variable {v : Vocabulary} {literal symbol : Option String} {ns : List Naming}

theorem define_of_none (h : slot? t = none) : v.define t literal symbol = v := by
  rw [define, h]

namespace Regular

-- It is enough to look at the length of one table.
theorem define_eq (hv : v.Regular) (h : slot? t = some i) :
    v.define t literal symbol = ⟨place v.literals i literal, place v.symbols i symbol⟩ := by
  rw [Vocabulary.define, h]
  simp only [place, enlarge, ← hv.parallel]
  split <;> rfl

theorem define (hv : v.Regular) (t : TokenType) (literal symbol : Option String) :
    (v.define t literal symbol).Regular := by
  cases h : slot? t
  case none =>
    rw [define_of_none h]
    exact hv
  case some i =>
    rw [hv.define_eq h]
    refine ⟨?_, hv.literals.place h literal, hv.symbols.place h symbol⟩
    rw [length_place, length_place, hv.parallel]

theorem defineAll (hv : v.Regular) (ns : List Naming) : (v.defineAll ns).Regular := by
  induction ns generalizing v
  case nil          => exact hv
  case cons n ns hi => exact hi (hv.define n.type n.literal n.symbol)

theorem define_self (hv : v.Regular) (ht : 0 < t) (literal symbol : Option String) :
    (v.define t literal symbol).literal? t = literal ∧
      (v.define t literal symbol).symbol? t = symbol := by
  cases h : slot? t
  case none   => exact absurd (Int32.le_iff_toInt_le.mpr (slot?_eq_none.mp h)) (Int32.not_le.mpr ht)
  case some i =>
    rw [hv.define_eq h]
    exact ⟨(named?_place h).trans (if_pos rfl), (named?_place h).trans (if_pos rfl)⟩

theorem define_other (hv : v.Regular) (hu : u ≠ t) (literal symbol : Option String) :
    (v.define t literal symbol).literal? u = v.literal? u ∧
      (v.define t literal symbol).symbol? u = v.symbol? u := by
  cases h : slot? t
  case none =>
    rw [define_of_none h]
    exact ⟨rfl, rfl⟩
  case some i =>
    rw [hv.define_eq h]
    exact ⟨(named?_place h).trans (if_neg hu), (named?_place h).trans (if_neg hu)⟩

theorem defineAll_other (hv : v.Regular) (h : ∀ n ∈ ns, n.type ≠ t) :
    (v.defineAll ns).literal? t = v.literal? t ∧ (v.defineAll ns).symbol? t = v.symbol? t := by
  induction ns generalizing v
  case nil => exact ⟨rfl, rfl⟩
  case cons n ns hi =>
    have ⟨hn, hns⟩ := List.forall_mem_cons.mp h
    have ⟨hl, hs⟩ := hv.define_other hn.symm n.literal n.symbol
    have ⟨hl', hs'⟩ := hi (hv.define n.type n.literal n.symbol) hns
    exact ⟨hl'.trans hl, hs'.trans hs⟩

-- The names that are given later go to other token types.
theorem defineAll_last (hv : v.Regular) {n : Naming} {after : List Naming} (before : List Naming)
    (hn : 0 < n.type) (ha : ∀ m ∈ after, m.type ≠ n.type) :
    (v.defineAll (before ++ n :: after)).literal? n.type = n.literal ∧
      (v.defineAll (before ++ n :: after)).symbol? n.type = n.symbol := by
  have hb := hv.defineAll before
  have ⟨hl, hs⟩ := hb.define_self hn n.literal n.symbol
  have ⟨hl', hs'⟩ := (hb.define n.type n.literal n.symbol).defineAll_other ha
  have he : v.defineAll (before ++ n :: after) =
      ((v.defineAll before).define n.type n.literal n.symbol).defineAll after := by
    simp [Vocabulary.defineAll]
  rw [he]
  exact ⟨hl'.trans hl, hs'.trans hs⟩

theorem length_define (hv : v.Regular) (t : TokenType) (literal symbol : Option String) :
    ((v.define t literal symbol).literals.length : Int) =
      if 0 < t.toInt then max (v.literals.length : Int) (t.toInt + 1) else v.literals.length := by
  cases h : slot? t
  case none   => rw [define_of_none h, if_neg (Int.not_lt.mpr (slot?_eq_none.mp h))]
  case some i =>
    obtain ⟨hpos, hi⟩ := slot?_eq_some.mp h
    rw [hv.define_eq h, if_pos (by omega), length_place]
    omega

theorem spans_cons (hv : v.Regular) {n : Naming} {size : Nat}
    (h : (v.define n.type n.literal n.symbol).Spans ns size) : v.Spans (n :: ns) size := by
  have hlength := hv.length_define n.type n.literal n.symbol
  have hbefore := h.before
  refine ⟨?_, List.forall_mem_cons.mpr ⟨fun hn => ?_, h.covers⟩, ?_⟩
  · split at hlength <;> omega
  · rw [if_pos hn] at hlength
    omega
  · rcases h.needed with he | ⟨m, hm, he⟩
    · by_cases hn : 0 < n.type.toInt
      case pos =>
        rw [if_pos hn] at hlength
        by_cases hle : (v.literals.length : Int) ≤ n.type.toInt
        case pos => exact .inr ⟨n, List.mem_cons_self .., hn, by omega⟩
        case neg => exact .inl (by omega)
      case neg =>
        rw [if_neg hn] at hlength
        exact .inl (by omega)
    · exact .inr ⟨m, List.mem_cons_of_mem _ hm, he⟩

theorem spans (hv : v.Regular) (ns : List Naming) :
    v.Spans ns (v.defineAll ns).literals.length := by
  induction ns generalizing v
  case nil          => exact ⟨Nat.le_refl _, by simp, .inl rfl⟩
  case cons n ns hi => exact hv.spans_cons (hi (hv.define n.type n.literal n.symbol))

-- The tables have no more places than there are token types, so the last place is one.
theorem toInt_maxType (hv : v.Regular) : v.maxType.toInt = (v.literals.length - 1 : Nat) := by
  have hbound := hv.literals.bound
  rw [maxType, toNat_maxValue, Int32.toInt_ofNat_of_lt (by omega)]
  omega

theorem leadsTo (hv : v.Regular) (name : String) : v.LeadsTo name (v.typeOf? name) := by
  rw [typeOf?, toNat_maxValue]
  cases hl : v.literals.findIdx? (· == some name)
  case some i =>
    obtain ⟨hi, hfirst⟩ := hv.literals.isFirst hl
    change LeadsTo v name (if _ then _ else _)
    rw [if_pos (by omega)]
    exact .literal hfirst
  case none =>
    cases hs : v.symbols.findIdx? (· == some name)
    case some i =>
      obtain ⟨hi, hfirst⟩ := hv.symbols.isFirst hs
      change LeadsTo v name (if _ then _ else _)
      rw [if_pos (by omega)]
      exact .symbol (named?_ne hl) hfirst
    case none => exact .nowhere (named?_ne hl) (named?_ne hs)

end Regular

theorem isLargest_maxType (ns : List Naming) : IsLargest ns (empty.defineAll ns).maxType := by
  have hmax := (regular_empty.defineAll ns).toInt_maxType
  have hspans := regular_empty.spans ns
  generalize (empty.defineAll ns).maxType = t at hmax
  generalize (empty.defineAll ns).literals.length = size at hmax hspans
  constructor
  case bound =>
    intro n hn
    have hcovers := hspans.covers n hn
    rw [Int32.le_iff_toInt_le]
    omega
  case reached =>
    simp only [Int32.le_iff_toInt_le, Int32.lt_iff_toInt_lt, Int32.toInt_zero]
    rcases hspans.needed with hsize | ⟨n, hn, hpos, hsize⟩
    case inl =>
      have hempty : empty.literals.length = 0 := rfl
      refine .inl ⟨fun n hn => ?_, Int32.toInt.inj ?_⟩
      · have hcovers := hspans.covers n hn
        omega
      · rw [Int32.toInt_zero]
        omega
    case inr =>
      refine .inr ⟨by omega, n, hn, Int32.toInt.inj ?_⟩
      omega

-- Names that are given one after another to an empty vocabulary. The tables stay of one length, a
-- token type has the names that it was given last, naming one type leaves the names of the others,
-- the largest type is the largest that was named, and a name leads to the first type that has it.
theorem defineAll_lastWins (ns : List Naming) :
    let v := empty.defineAll ns
    v.literals.length = v.symbols.length ∧
    (∀ before n after, ns = before ++ n :: after → 0 < n.type → (∀ m ∈ after, m.type ≠ n.type) →
      v.literal? n.type = n.literal ∧ v.symbol? n.type = n.symbol) ∧
    (∀ t, t ≤ 0 ∨ (∀ n ∈ ns, n.type ≠ t) → v.literal? t = none ∧ v.symbol? t = none) ∧
    (∀ t literal symbol u, u ≠ t → (v.define t literal symbol).literal? u = v.literal? u ∧
      (v.define t literal symbol).symbol? u = v.symbol? u) ∧
    IsLargest ns v.maxType ∧
    ∀ name, v.LeadsTo name (v.typeOf? name) := by
  intro v
  have hv : v.Regular := regular_empty.defineAll ns
  refine ⟨hv.parallel, ?_, ?_, fun t literal symbol u hu => hv.define_other hu literal symbol,
    isLargest_maxType ns, hv.leadsTo⟩
  · rintro before n after rfl hn ha
    exact regular_empty.defineAll_last before hn ha
  · rintro t (ht | ht)
    · have hs := slot?_eq_none.mpr (Int32.le_iff_toInt_le.mp ht)
      exact ⟨named?_eq_none hs, named?_eq_none hs⟩
    · obtain ⟨hl, hs⟩ := regular_empty.defineAll_other ht
      exact ⟨hl.trans named?_nil, hs.trans named?_nil⟩

-- A gap, a reserved type, a second naming that takes a name away, and one name given twice.
def renamed : List Naming :=
  [⟨4, some "';'", none⟩, ⟨-1, some "eof", none⟩, ⟨2, none, some "ID"⟩, ⟨4, none, some "SEMI"⟩,
    ⟨1, some "ID", none⟩, ⟨3, some "ID", some "SEMI"⟩]

theorem defineAll_lastWins_renamed :
    let v := empty.defineAll renamed
    (∀ m ∈ renamed.drop 4, m.type ≠ 4) ∧ v.literal? 4 = none ∧ v.symbol? 4 = some "SEMI" ∧
    v.literal? (-1) = none ∧ v.literal? 7 = none ∧
    (v.define 2 none none).symbol? 3 = some "SEMI" ∧ IsLargest renamed 4 ∧
    v.LeadsTo "ID" (some 1) ∧ v.LeadsTo "SEMI" (some 3) ∧ v.LeadsTo "';'" none := by
  have hafter : ∀ m ∈ renamed.drop 4, m.type ≠ 4 := by decide
  have hmax : (empty.defineAll renamed).maxType = 4 := by decide +kernel
  have hthree : (empty.defineAll renamed).symbol? 3 = some "SEMI" := by decide +kernel
  have hid : (empty.defineAll renamed).typeOf? "ID" = some 1 := by decide +kernel
  have hsemi : (empty.defineAll renamed).typeOf? "SEMI" = some 3 := by decide +kernel
  have hnowhere : (empty.defineAll renamed).typeOf? "';'" = none := by decide +kernel
  obtain ⟨_, hlast, hnone, hother, hlargest, hleads⟩ := defineAll_lastWins renamed
  obtain ⟨hl, hs⟩ := hlast (renamed.take 3) ⟨4, none, some "SEMI"⟩ (renamed.drop 4) rfl (by decide)
    hafter
  exact ⟨hafter, hl, hs, (hnone (-1) (.inl (by decide))).left, (hnone 7 (.inr (by decide))).left,
    (hother 2 none none 3 (by decide)).right.trans hthree, hmax ▸ hlargest, hid ▸ hleads "ID",
    hsemi ▸ hleads "SEMI", hnowhere ▸ hleads "';'"⟩

end Vocabulary
end Caret
