import Caret.Text.Word
import Mathlib.Tactic.ByContra

-- Words as longest runs of word characters, for any notion of word character. The search outwards
-- from a character ends where its word ends, and a caret selects the word that it touches.
namespace Caret

-- A run of word characters that is not empty and has no word character next to it.
structure IsWordIn (isWord : Char → Bool) (chars : List Char) (start stop : Nat) : Prop where
  nonempty : start < stop
  inside   : stop ≤ chars.length
  word     : ∀ i, start ≤ i → i < stop → chars[i]?.any isWord
  before   : ∀ i, i + 1 = start → ¬chars[i]?.any isWord
  after    : ¬chars[stop]?.any isWord

-- The word that a caret touches. The caret may stand behind it if no word begins there.
structure WordAt (isWord : Char → Bool) (chars : List Char) (caret start stop : Nat) : Prop extends
    IsWordIn isWord chars start stop where
  start_le : start ≤ caret
  le_stop  : caret ≤ stop
  ahead    : chars[caret]?.any isWord → caret < stop

-- The character behind the caret or the one in front of it is a word character.
def Touches (isWord : Char → Bool) (chars : List Char) (caret : Nat) : Prop :=
  chars[caret]?.any isWord ∨ ∃ i, i + 1 = caret ∧ chars[i]?.any isWord

section Runs

variable {α : Type} {p : α → Bool} {xs : List α} {i j : Nat}

theorem any_getElem?_of_lt_takeWhile (h : j < (xs.takeWhile p).length) : xs[j]?.any p := by
  induction xs generalizing j
  case nil => simp at h
  case cons x xs hi =>
    by_cases hx : p x
    case neg => simp [List.takeWhile_cons_of_neg hx] at h
    case pos =>
      rw [List.takeWhile_cons_of_pos hx, List.length_cons] at h
      cases j
      case zero   => simpa using hx
      case succ j => simpa using hi (Nat.lt_of_succ_lt_succ h)

theorem not_any_getElem?_takeWhile : ¬xs[(xs.takeWhile p).length]?.any p := by
  induction xs
  case nil => simp
  case cons x xs hi =>
    by_cases hx : p x
    case pos => simpa [List.takeWhile_cons_of_pos hx] using hi
    case neg => simpa [List.takeWhile_cons_of_neg hx] using hx

theorem getElem?_reverse_take (hi : i ≤ xs.length) (hj : j < i) :
    (xs.take i).reverse[i - 1 - j]? = xs[j]? := by
  have hlength : (xs.take i).length = i := List.length_take_of_le hi
  have hback : i - 1 - (i - 1 - j) = j := by omega
  rw [List.getElem?_reverse (by omega), hlength, hback, List.getElem?_take_of_lt hj]

end Runs

variable {isWord : Char → Bool} {chars : List Char} {i caret : Nat}

-- Both searches read characters that stand next to each other: the one backwards up to `i`, the
-- other from `i` on.
theorem isWordIn_around (h : chars[i]?.any isWord) :
    let before := ((chars.take i).reverse.takeWhile isWord).length
    let behind := ((chars.drop i).takeWhile isWord).length
    0 < behind ∧ IsWordIn isWord chars (i - before) (i + behind) := by
  intro before behind
  have hi : i < chars.length := by
    by_contra hle
    simp [List.getElem?_eq_none (Nat.not_lt.mp hle)] at h
  have hbefore : before ≤ i := by
    have hle := (List.takeWhile_sublist (l := (chars.take i).reverse) isWord).length_le
    rw [List.length_reverse, List.length_take] at hle
    omega
  have hbehind : behind ≤ chars.length - i := by
    have hle := (List.takeWhile_sublist (l := chars.drop i) isWord).length_le
    rwa [List.length_drop] at hle
  have hpos : 0 < behind := by
    by_contra hz
    have hnot : ¬(chars.drop i)[behind]?.any isWord := not_any_getElem?_takeWhile
    rw [Nat.eq_zero_of_not_pos hz, List.getElem?_drop, Nat.add_zero] at hnot
    exact hnot h
  refine ⟨hpos, by omega, by omega, fun j hstart hstop => ?_, fun j hj => ?_, ?_⟩
  · by_cases hji : j < i
    case pos =>
      rw [← getElem?_reverse_take (Nat.le_of_lt hi) hji]
      exact any_getElem?_of_lt_takeWhile (show i - 1 - j < before by omega)
    case neg =>
      have hadd : i + (j - i) = j := by omega
      rw [← hadd, ← List.getElem?_drop]
      exact any_getElem?_of_lt_takeWhile (show j - i < behind by omega)
  · have hsub : i - 1 - j = before := by omega
    rw [← getElem?_reverse_take (Nat.le_of_lt hi) (show j < i by omega), hsub]
    exact not_any_getElem?_takeWhile
  · rw [← List.getElem?_drop]
    exact not_any_getElem?_takeWhile

theorem exists_wordAround (h : chars[i]?.any isWord) : ∃ start stop,
    wordAround? isWord chars i = some (start, stop) ∧ start ≤ i ∧ i < stop ∧
      IsWordIn isWord chars start stop := by
  have ⟨hpos, hword⟩ := isWordIn_around h
  exact ⟨_, _, if_pos h, Nat.sub_le .., Nat.lt_add_of_pos_right hpos, hword⟩

theorem wordAround?_eq_none (h : ¬chars[i]?.any isWord) : wordAround? isWord chars i = none :=
  if_neg h

theorem exists_wordAtCaret (h : Touches isWord chars caret) : ∃ start stop,
    wordAtCaret? isWord chars caret = some (start, stop) ∧
      WordAt isWord chars caret start stop := by
  by_cases hc : chars[caret]?.any isWord
  case pos =>
    obtain ⟨start, stop, he, hstart, hstop, hword⟩ := exists_wordAround hc
    refine ⟨start, stop, ?_, hword, hstart, Nat.le_of_lt hstop, fun _ => hstop⟩
    unfold wordAtCaret?
    rw [he]
    rfl
  case neg =>
    obtain ⟨i, rfl, hi⟩ := h.resolve_left hc
    obtain ⟨start, stop, he, hstart, hstop, hword⟩ := exists_wordAround hi
    refine ⟨start, stop, ?_, hword, by omega, hstop, fun h => absurd h hc⟩
    rw [wordAtCaret?, wordAround?_eq_none hc]
    exact he

theorem wordAtCaret?_eq_none (h : ¬Touches isWord chars caret) :
    wordAtCaret? isWord chars caret = none := by
  have ⟨hc, hi⟩ := not_or.mp h
  unfold wordAtCaret?
  rw [wordAround?_eq_none hc]
  cases caret
  case zero   => rfl
  case succ i => exact wordAround?_eq_none fun h => hi ⟨i, rfl, h⟩

end Caret
