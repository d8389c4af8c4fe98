import Caret.Text.Newline

-- How the lines of a text change with the text. Two texts are split apart from each other, unless a
-- carriage return at the end of the first meets a line feed at the start of the second.
namespace Caret

-- Where two texts meet, no carriage return and line feed come together.
def Apart (cs ds : List Char) : Prop :=
  ¬(cs.getLast? = some '\r' ∧ ds.head? = some '\n')

namespace Line

@[simp]
theorem totalLength_nil : totalLength [] = 0 :=
  rfl

@[simp]
theorem totalLength_cons (l : Line) (ls : List Line) :
    totalLength (l :: ls) = l.length + totalLength ls :=
  rfl

@[simp]
theorem totalLength_append (ls₁ ls₂ : List Line) :
    totalLength (ls₁ ++ ls₂) = totalLength ls₁ + totalLength ls₂ := by
  induction ls₁ <;> simp
  case cons hi => omega

-- The line with more characters at its start.
def extend (n : Nat) (l : Line) : Line :=
  { l with length := n + l.length }

@[simp]
theorem extend_zero (l : Line) : l.extend 0 = l := by
  simp [extend]

@[simp]
theorem extend_extend (l : Line) (m n : Nat) : (l.extend m).extend n = l.extend (n + m) := by
  simp [extend, Nat.add_assoc]

end Line

-- Characters that belong to a newline wherever they stand.
def Newline.isChar (c : Char) : Bool :=
  c = '\r' ∨ c = '\n'

theorem splitLines_cons {c : Char} (hc : ¬Newline.isChar c) (cs : List Char) :
    splitLines (c :: cs) = (splitLines cs).modifyHead (Line.extend 1) := by
  simp [Newline.isChar] at hc
  rw [splitLines]
  · congr
    funext l
    simp [Line.extend, Nat.add_comm]
  all_goals simp_all

theorem splitLines_cr {cs : List Char} (h : cs.head? ≠ some '\n') :
    splitLines ('\r' :: cs) = ⟨1, some .cr⟩ :: splitLines cs := by
  rw [splitLines]
  rintro ds rfl
  simp at h

theorem splitLines_ne_nil (cs : List Char) : splitLines cs ≠ [] := by
  fun_induction splitLines cs <;> simp_all

-- The line has a newline, and it is long enough for it.
structure Line.Closed (l : Line) : Prop where
  isSome  : l.newline.isSome
  length_le : ∀ newline, l.newline = some newline → newline.length ≤ l.length

theorem Line.Closed.pos {l : Line} (h : l.Closed) : 0 < l.length := by
  have ⟨newline, hn⟩ := Option.isSome_iff_exists.mp h.isSome
  exact Nat.lt_of_lt_of_le newline.length_pos (h.length_le newline hn)

theorem Line.Closed.extend {l : Line} (h : l.Closed) (n : Nat) : (l.extend n).Closed :=
  ⟨h.isSome, fun newline hn => Nat.le_trans (h.length_le newline hn) (Nat.le_add_left ..)⟩

-- All lines but the last are closed, and the last has no newline.
theorem exists_splitLines (cs : List Char) :
    ∃ a n, splitLines cs = a ++ [⟨n, none⟩] ∧ ∀ l ∈ a, l.Closed := by
  have cons {x : Line} {ls : List Line} (hx : x.Closed)
      (hi : ∃ a n, ls = a ++ [⟨n, none⟩] ∧ ∀ l ∈ a, l.Closed) :
      ∃ a n, x :: ls = a ++ [⟨n, none⟩] ∧ ∀ l ∈ a, l.Closed := by
    obtain ⟨a, n, ha, hl⟩ := hi
    exact ⟨x :: a, n, by simp [ha], by simpa using ⟨hx, hl⟩⟩
  fun_induction splitLines cs
  case case1 => exact ⟨[], 0, rfl, by simp⟩
  case case2 cs hi => exact cons ⟨rfl, by simp [Newline.length, Newline.chars]⟩ hi
  case case3 cs _ hi => exact cons ⟨rfl, by simp [Newline.length, Newline.chars]⟩ hi
  case case4 cs hi => exact cons ⟨rfl, by simp [Newline.length, Newline.chars]⟩ hi
  case case5 c cs _ _ _ hi =>
    obtain ⟨a, n, ha, hl⟩ := hi
    cases a
    case nil => exact ⟨[], n + 1, by simp [ha], by simp⟩
    case cons x a =>
      simp at hl
      refine ⟨x.extend 1 :: a, n, by simp [ha, Line.extend, Nat.add_comm], ?_⟩
      simpa using ⟨hl.left.extend 1, hl.right⟩

theorem totalLength_splitLines (cs : List Char) : Line.totalLength (splitLines cs) = cs.length := by
  fun_induction splitLines cs
  case case1 => rfl
  case case5 c cs _ _ _ hi =>
    have ⟨x, ls, he⟩ := List.exists_cons_of_ne_nil (splitLines_ne_nil cs)
    simp [he] at hi ⊢
    omega
  all_goals simp at *; omega

theorem Apart.tail {c : Char} {cs ds : List Char} (h : Apart (c :: cs) ds) : Apart cs ds := by
  rintro ⟨hl, hd⟩
  exact h ⟨by simp [List.getLast?_cons, hl], hd⟩

-- A line with a newline is not the last one.
theorem cons_eq_append_open {x : Line} {ls a : List Line} {n : Nat} (hx : x.newline.isSome)
    (h : x :: ls = a ++ [⟨n, none⟩]) : ∃ a', a = x :: a' ∧ ls = a' ++ [⟨n, none⟩] := by
  cases a
  case nil => simp_all
  case cons y a => simp at h; exact ⟨a, by simp [h], h.right⟩

theorem splitLines_append {cs ds : List Char} {a : List Line} {n : Nat} (h : Apart cs ds)
    (hc : splitLines cs = a ++ [⟨n, none⟩]) :
    splitLines (cs ++ ds) = a ++ (splitLines ds).modifyHead (Line.extend n) := by
  fun_induction splitLines cs generalizing a n
  case case1 =>
    obtain ⟨rfl, rfl⟩ : a = [] ∧ n = 0 := by cases a <;> simp_all
    have ⟨x, ls, he⟩ := List.exists_cons_of_ne_nil (splitLines_ne_nil ds)
    simp [he]
  case case2 cs hi =>
    have ⟨a', ha, hc'⟩ := cons_eq_append_open rfl hc
    simp [splitLines, ha, hi h.tail.tail hc']
  case case3 cs hcs hi =>
    have ⟨a', ha, hc'⟩ := cons_eq_append_open rfl hc
    have hd : (cs ++ ds).head? ≠ some '\n' := by
      cases cs
      case nil => exact fun hd => h ⟨rfl, hd⟩
      case cons c cs => simpa using fun hc => hcs cs (by rw [hc])
    simp [splitLines_cr hd, ha, hi h.tail hc']
  case case4 cs hi =>
    have ⟨a', ha, hc'⟩ := cons_eq_append_open rfl hc
    simp [splitLines, ha, hi h.tail hc']
  case case5 c cs _ h₁ h₂ hi =>
    have hc' : ¬Newline.isChar c := by simp [Newline.isChar]; exact ⟨h₁, h₂⟩
    have ⟨a', n', ha', _⟩ := exists_splitLines cs
    rw [List.cons_append, splitLines_cons hc', hi h.tail ha']
    have ⟨x, ls, he⟩ := List.exists_cons_of_ne_nil (splitLines_ne_nil ds)
    rw [ha'] at hc
    cases a' <;> cases a <;> simp at hc
    case nil.nil => simp [he, Line.extend]; omega
    case cons.cons => simp [← hc, Line.extend, Nat.add_comm]

-- How the end of a line is spelled.
def Line.ending (l : Line) : List Char :=
  (l.newline.map Newline.chars).getD []

-- Where a line lies in its text.
structure Line.Within (l : Line) (before body after text : List Char) : Prop where
  text_eq : text = before ++ (body ++ l.ending) ++ after
  length  : l.length = body.length + l.ending.length
  body    : ∀ c ∈ body, ¬Newline.isChar c

-- A newline at the start of a text is a line of its own.
theorem exists_within_cons (newline : Newline) {cs : List Char} {ls a b : List Line} {x : Line}
    (hi : ∀ {a}, ls = a ++ x :: b → ∃ u v w, x.Within u v w cs ∧ u.length = Line.totalLength a)
    (h : ⟨newline.length, some newline⟩ :: ls = a ++ x :: b) :
    ∃ u v w, x.Within u v w (newline.chars ++ cs) ∧ u.length = Line.totalLength a := by
  cases a
  case nil =>
    obtain ⟨rfl, _⟩ : ⟨newline.length, some newline⟩ = x ∧ ls = b := by simpa using h
    exact ⟨[], [], cs, ⟨rfl, by simp [Line.ending, Newline.length], by simp⟩, rfl⟩
  case cons y a =>
    obtain ⟨rfl, hl⟩ : ⟨newline.length, some newline⟩ = y ∧ ls = a ++ x :: b := by simpa using h
    obtain ⟨u, v, w, hw, hu⟩ := hi hl
    refine ⟨newline.chars ++ u, v, w, ⟨by simp [hw.text_eq], hw.length, hw.body⟩, ?_⟩
    simp [hu, Newline.length]

theorem exists_within {cs : List Char} {a b : List Line} {x : Line}
    (h : splitLines cs = a ++ x :: b) :
    ∃ u v w, x.Within u v w cs ∧ u.length = Line.totalLength a := by
  fun_induction splitLines cs generalizing a x
  case case1 =>
    obtain ⟨rfl, rfl⟩ : a = [] ∧ x = ⟨0, none⟩ := by cases a <;> simp_all
    exact ⟨[], [], [], ⟨rfl, rfl, by simp⟩, rfl⟩
  case case2 cs hi => exact exists_within_cons .crlf hi h
  case case3 cs hcs hi => exact exists_within_cons .cr hi h
  case case4 cs hi => exact exists_within_cons .lf hi h
  case case5 c cs _ h₁ h₂ hi =>
    have hc : ¬Newline.isChar c := by simp [Newline.isChar]; exact ⟨h₁, h₂⟩
    have ⟨y, ls, he⟩ := List.exists_cons_of_ne_nil (splitLines_ne_nil cs)
    rw [he] at h hi
    cases a
    case nil =>
      obtain ⟨rfl, rfl⟩ : { y with length := y.length + 1 } = x ∧ ls = b := by simpa using h
      have ⟨u, v, w, hw, hu⟩ := hi (a := []) rfl
      obtain rfl : u = [] := by simpa using hu
      refine ⟨[], c :: v, w, ⟨by simp [hw.text_eq, Line.ending], ?_, ?_⟩, rfl⟩
      · simp [hw.length, Line.ending]
        omega
      · simpa using ⟨by simpa using hc, by simpa using hw.body⟩
    case cons z a =>
      obtain ⟨rfl, rfl⟩ : { y with length := y.length + 1 } = z ∧ ls = a ++ x :: b := by
        simpa using h
      have ⟨u, v, w, hw, hu⟩ := hi (a := y :: a) rfl
      refine ⟨c :: u, v, w, ⟨by simp [hw.text_eq], hw.length, hw.body⟩, ?_⟩
      simp [hu]
      omega

theorem Newline.isChar_of_mem {c : Char} {newline : Newline} (h : c ∈ newline.chars) :
    Newline.isChar c := by
  cases newline <;> simp [Newline.chars] at h <;> simp [Newline.isChar, h]

theorem Line.isChar_of_mem_ending {c : Char} {l : Line} (h : c ∈ l.ending) : Newline.isChar c := by
  cases hn : l.newline <;> simp [ending, hn] at h
  case some newline => exact Newline.isChar_of_mem h

namespace Line.Within

variable {l : Line} {before body after text : List Char} {i : Nat}

theorem getElem?_eq (h : l.Within before body after text) (hi : i < l.length) :
    text[before.length + i]? = (body ++ l.ending)[i]? := by
  have hi' : i < (body ++ l.ending).length := by simp [← h.length, hi]
  rw [h.text_eq, List.append_assoc, List.getElem?_append_right (Nat.le_add_right ..),
    Nat.add_sub_cancel_left, List.getElem?_append_left hi']

-- The characters of a newline are where a line ends, and nowhere else in it.
theorem filter_getElem?_eq (h : l.Within before body after text) (hi : i < l.length) :
    text[before.length + i]?.filter Newline.isChar =
      if i < body.length then none else l.ending[i - body.length]? := by
  rw [h.getElem?_eq hi]
  split
  case isTrue hb =>
    rw [List.getElem?_append_left hb, Option.filter_eq_none_iff]
    exact fun c hc => h.body c (List.mem_of_getElem? hc)
  case isFalse hb =>
    rw [List.getElem?_append_right (by omega)]
    cases hc : l.ending[i - body.length]?
    case none => rfl
    case some c =>
      rw [Option.filter_eq_some_iff]
      exact ⟨rfl, isChar_of_mem_ending (List.mem_of_getElem? hc)⟩

end Line.Within

-- The last line has no newline.
theorem newline_eq_none_of_last {cs : List Char} {a : List Line} {x : Line}
    (h : splitLines cs = a ++ [x]) : x.newline = none := by
  have ⟨a', n, ha, _⟩ := exists_splitLines cs
  have hx := congrArg List.getLast? (h.symm.trans ha)
  simp at hx
  simp [hx]

end Caret
