import Caret.Proofs.Text.Lines

-- What the lines of a text are. A text has one segmentation that is cut just where its newlines
-- end, and its lines are that segmentation; so an edit leaves alone the lines that it does not
-- touch.
namespace Caret

-- A newline ends at an index: a line feed stands before it, or a carriage return that no line feed
-- follows.
def Newline.EndsAt (cs : List Char) (i : Nat) : Prop :=
  ∃ p, i = p + 1 ∧ (cs[p]? = some '\n' ∨ cs[p]? = some '\r' ∧ cs[p + 1]? ≠ some '\n')

namespace Line

-- One line ends at the offset and the next begins.
def Boundary (ls : List Line) (offset : Nat) : Prop :=
  ∃ a b, ls = a ++ b ∧ a ≠ [] ∧ b ≠ [] ∧ offset = totalLength a

-- The line ends in the newline that its characters spell, and they hold no other.
structure Spells (l : Line) (cs : List Char) : Prop where
  ending : ∃ body, cs = body ++ l.ending ∧ ∀ c ∈ body, ¬Newline.isChar c
  crlf   : l.newline = some .crlf ↔ ['\r', '\n'] <:+ cs

-- Lines that cut a text where its newlines end.
structure Segments (cs : List Char) (ls : List Line) : Prop where
  length   : totalLength ls = cs.length
  last     : ∃ a n, ls = a ++ [⟨n, none⟩] ∧ ∀ l ∈ a, l.newline.isSome
  boundary : ∀ i, Boundary ls i ↔ Newline.EndsAt cs i
  spells   : ∀ a l b, ls = a ++ l :: b → l.Spells ((cs.drop (totalLength a)).take l.length)

-- The characters of each line before its newline.
def contents (cs : List Char) : List Line → List (List Char)
  | []      => []
  | l :: ls => cs.take l.pureLength :: contents (cs.drop l.length) ls

-- A text line by line, from the first on.
inductive Splits : List Char → List Line → Prop
  | last {body : List Char} : (∀ c ∈ body, ¬Newline.isChar c) → Splits body [⟨body.length, none⟩]
  | line {body rest : List Char} {newline : Newline} {ls : List Line} :
    (∀ c ∈ body, ¬Newline.isChar c) → Apart newline.chars rest → Splits rest ls →
    Splits (body ++ (newline.chars ++ rest)) (⟨body.length + newline.length, some newline⟩ :: ls)

end Line

variable {cs body rest u v : List Char} {newline : Newline} {a b ls : List Line} {l : Line}
  {i : Nat}

theorem apart_of_body (hb : ∀ c ∈ body, ¬Newline.isChar c) : Apart body rest := by
  rintro ⟨hl, _⟩
  exact hb _ (List.mem_of_getLast? hl) (by decide)

namespace Newline

theorem not_endsAt_zero : ¬EndsAt cs 0 := by
  simp [EndsAt]

theorem endsAt_succ :
    EndsAt cs (i + 1) ↔ cs[i]? = some '\n' ∨ cs[i]? = some '\r' ∧ cs[i + 1]? ≠ some '\n' := by
  simp [EndsAt]

theorem EndsAt.le_length (h : EndsAt cs i) : i ≤ cs.length := by
  have ⟨p, hi, hp⟩ := h
  have ⟨c, hc⟩ : ∃ c, cs[p]? = some c := by
    rcases hp with hp | ⟨hp, _⟩ <;> exact ⟨_, hp⟩
  have ⟨hlt, _⟩ := List.getElem?_eq_some_iff.mp hc
  omega

-- Where a newline ends is seen from the character before and the one after.
theorem endsAt_append_left (h : i < u.length) : EndsAt (u ++ v) i ↔ EndsAt u i := by
  cases i
  case zero   => simp [not_endsAt_zero]
  case succ p =>
    rw [endsAt_succ, endsAt_succ, List.getElem?_append_left h, List.getElem?_append_left (by omega)]

theorem endsAt_append_right : EndsAt (u ++ v) (u.length + (i + 1)) ↔ EndsAt v (i + 1) := by
  have hget {j : Nat} : (u ++ v)[u.length + j]? = v[j]? := by
    rw [List.getElem?_append_right (Nat.le_add_right ..), Nat.add_sub_cancel_left]
  rw [← Nat.add_assoc, endsAt_succ, endsAt_succ, hget, Nat.add_assoc, hget]

-- Where two texts meet, a newline of the first ends unless the second completes it.
theorem endsAt_append_length : EndsAt (u ++ v) u.length ↔ EndsAt u u.length ∧ Apart u v := by
  cases hu : u.length
  case zero   => simp [not_endsAt_zero]
  case succ p =>
    have hlast : u.getLast? = u[p]? := by rw [List.getLast?_eq_getElem?, hu, Nat.add_sub_cancel]
    have hhead : (u ++ v)[p + 1]? = v.head? := by
      rw [← hu, List.getElem?_append_right (Nat.le_refl _), Nat.sub_self, List.head?_eq_getElem?]
    have hnone : u[p + 1]? = none := by simp [hu]
    rw [endsAt_succ, endsAt_succ, List.getElem?_append_left (by omega), hhead, hnone, Apart, hlast]
    grind

end Newline

theorem Apart.endsAt_append (h : Apart u v) :
    Newline.EndsAt (u ++ v) i ↔
      Newline.EndsAt u i ∨ ∃ j, Newline.EndsAt v j ∧ i = u.length + j := by
  rcases Nat.lt_trichotomy i u.length with hlt | rfl | hgt
  · rw [Newline.endsAt_append_left hlt]
    refine ⟨.inl, Or.rec id ?_⟩
    rintro ⟨j, _, hj⟩
    omega
  · rw [Newline.endsAt_append_length, and_iff_left h]
    refine ⟨.inl, Or.rec id ?_⟩
    rintro ⟨j, hv, hj⟩
    obtain rfl : j = 0 := by omega
    exact absurd hv Newline.not_endsAt_zero
  · obtain ⟨j, rfl⟩ := Nat.exists_eq_add_of_lt hgt
    rw [Nat.add_assoc, Newline.endsAt_append_right]
    refine ⟨fun hv => .inr ⟨j + 1, hv, rfl⟩, ?_⟩
    rintro (hu | ⟨k, hv, hk⟩)
    · have hle := hu.le_length
      omega
    · obtain rfl : k = j + 1 := by omega
      exact hv

theorem Newline.not_endsAt_body (hb : ∀ c ∈ body, ¬Newline.isChar c) : ¬EndsAt body i := by
  rintro ⟨p, _, hp | ⟨hp, _⟩⟩
  all_goals exact hb _ (List.mem_of_getElem? hp) (by decide)

theorem Newline.endsAt_chars : EndsAt newline.chars i ↔ i = newline.length := by
  cases i
  case zero   => cases newline <;> simp [not_endsAt_zero, length, chars]
  case succ p =>
    rw [endsAt_succ]
    cases newline <;> rcases p with _ | _ | p <;> simp [length, chars]

-- A line with its newline in front of a text.
theorem Newline.endsAt_line (hb : ∀ c ∈ body, ¬Newline.isChar c) (h : Apart newline.chars rest) :
    EndsAt (body ++ (newline.chars ++ rest)) i ↔
      i = body.length + newline.length ∨
        ∃ j, EndsAt rest j ∧ i = body.length + newline.length + j := by
  rw [(apart_of_body hb).endsAt_append]
  simp only [not_endsAt_body hb, false_or, h.endsAt_append, endsAt_chars]
  constructor
  case mp =>
    rintro ⟨j, rfl | ⟨k, hk, rfl⟩, rfl⟩
    · exact .inl rfl
    · exact .inr ⟨k, hk, by simp [length, Nat.add_assoc]⟩
  case mpr =>
    rintro (rfl | ⟨k, hk, rfl⟩)
    · exact ⟨_, .inl rfl, rfl⟩
    · exact ⟨_, .inr ⟨k, hk, rfl⟩, by simp [length, Nat.add_assoc]⟩

theorem Apart.take (h : Apart u v) (n : Nat) : Apart u (v.take n) := by
  rintro ⟨hu, hv⟩
  refine h ⟨hu, ?_⟩
  cases n <;> simp_all [List.head?_take]

-- Characters that belong to no newline make the first line longer.
theorem splitLines_body (hb : ∀ c ∈ body, ¬Newline.isChar c) (cs : List Char) :
    splitLines (body ++ cs) = (splitLines cs).modifyHead (Line.extend body.length) := by
  induction body
  case nil =>
    have ⟨x, ls, he⟩ := List.exists_cons_of_ne_nil (splitLines_ne_nil cs)
    simp [he]
  case cons c body hi =>
    have ⟨x, ls, he⟩ := List.exists_cons_of_ne_nil (splitLines_ne_nil cs)
    rw [List.forall_mem_cons] at hb
    rw [List.cons_append, splitLines_cons hb.left, hi hb.right, he]
    simp [Nat.add_comm]

theorem splitLines_newline (h : Apart newline.chars rest) :
    splitLines (newline.chars ++ rest) = ⟨newline.length, some newline⟩ :: splitLines rest := by
  cases newline
  case cr   => exact splitLines_cr fun hr => h ⟨rfl, hr⟩
  case lf   => simp [Newline.chars, Newline.length, splitLines]
  case crlf => simp [Newline.chars, Newline.length, splitLines]

namespace Line

theorem Splits.cons {c : Char} (hc : ¬Newline.isChar c) (h : Splits cs ls) :
    Splits (c :: cs) (ls.modifyHead (extend 1)) := by
  cases h
  case last hb =>
    have hb' : ∀ x ∈ c :: cs, ¬Newline.isChar x := List.forall_mem_cons.mpr ⟨hc, hb⟩
    simpa [extend, Nat.add_comm] using Splits.last hb'
  case line body _ _ _ hb ha hr =>
    have hb' : ∀ x ∈ c :: body, ¬Newline.isChar x := List.forall_mem_cons.mpr ⟨hc, hb⟩
    simpa [extend, Nat.add_comm, Nat.add_left_comm, Nat.add_assoc] using Splits.line hb' ha hr

theorem splits_nil : Splits [] [⟨0, none⟩] :=
  .last (by simp)

theorem splits_newline (newline : Newline) (h : Apart newline.chars rest) (hr : Splits rest ls) :
    Splits (newline.chars ++ rest) (⟨newline.length, some newline⟩ :: ls) := by
  have hb : ∀ c ∈ [], ¬Newline.isChar c := by simp
  simpa using Splits.line hb h hr

end Line

theorem splits_splitLines (cs : List Char) : Line.Splits cs (splitLines cs) := by
  fun_induction splitLines cs
  case case1 => exact Line.splits_nil
  case case2 cs hi => exact Line.splits_newline .crlf (by simp [Apart, Newline.chars]) hi
  case case3 cs hcs hi =>
    refine Line.splits_newline .cr ?_ hi
    rintro ⟨_, hd⟩
    obtain ⟨ds, rfl⟩ := List.head?_eq_some_iff.mp hd
    exact hcs ds rfl
  case case4 cs hi => exact Line.splits_newline .lf (by simp [Apart, Newline.chars]) hi
  case case5 c cs _ h₁ h₂ hi =>
    have hc : ¬Newline.isChar c := by simp [Newline.isChar]; exact ⟨h₁, h₂⟩
    have he := splitLines_cons hc cs
    rw [splitLines] at he
    · rw [he]
      exact hi.cons hc
    all_goals assumption

namespace Line

theorem Splits.eq_splitLines (h : Splits cs ls) : ls = splitLines cs := by
  induction h
  case last body hb => simpa [splitLines, extend] using (splitLines_body hb []).symm
  case line hb ha _ hi =>
    rw [splitLines_body hb, splitLines_newline ha, ← hi]
    simp [extend]

theorem splits_iff : Splits cs ls ↔ ls = splitLines cs :=
  ⟨Splits.eq_splitLines, fun h => h ▸ splits_splitLines cs⟩

theorem Splits.ne_nil (h : Splits cs ls) : ls ≠ [] := by
  cases h <;> simp

-- A text without its first line.
theorem Splits.uncons (h : Splits cs (l :: ls)) (hn : ls ≠ []) :
    ∃ body newline rest, cs = body ++ (newline.chars ++ rest) ∧ (∀ c ∈ body, ¬Newline.isChar c) ∧
      Apart newline.chars rest ∧ l = ⟨body.length + newline.length, some newline⟩ ∧
      Splits rest ls := by
  cases h
  case last => contradiction
  case line hb ha hr => exact ⟨_, _, _, rfl, hb, ha, rfl, hr⟩

-- Between two lines a text falls into the texts of the lines before and of those after.
theorem Splits.cut (h : Splits cs (a ++ b)) (hb : b ≠ []) :
    Splits (cs.take (totalLength a)) (a ++ [⟨0, none⟩]) ∧ Splits (cs.drop (totalLength a)) b := by
  induction a generalizing cs
  case nil => exact ⟨by simpa using splits_nil, h⟩
  case cons x a hi =>
    have ⟨body, newline, rest, hcs, hbody, hapart, hx, hr⟩ := h.uncons (by simp [hb])
    have ⟨htake, hdrop⟩ := hi hr
    have hlen : totalLength (x :: a) = (body ++ newline.chars).length + totalLength a := by
      simp [hx, Newline.length]
    rw [hcs, ← List.append_assoc, hlen, List.take_length_add_append, List.drop_length_add_append,
      List.append_assoc, hx]
    exact ⟨.line hbody (hapart.take _) htake, hdrop⟩

theorem boundary_cons (hn : ls ≠ []) :
    Boundary (l :: ls) i ↔ i = l.length ∨ ∃ j, Boundary ls j ∧ i = l.length + j := by
  constructor
  case mp =>
    rintro ⟨a, b, he, ha, hb, rfl⟩
    obtain ⟨x, a, rfl⟩ := List.exists_cons_of_ne_nil ha
    obtain ⟨rfl, rfl⟩ := List.cons.inj he
    cases a
    case nil      => exact .inl (by simp)
    case cons y a => exact .inr ⟨_, ⟨y :: a, b, rfl, by simp, hb, rfl⟩, rfl⟩
  case mpr =>
    rintro (rfl | ⟨j, ⟨a, b, rfl, ha, hb, rfl⟩, rfl⟩)
    · exact ⟨[l], ls, rfl, by simp, hn, by simp⟩
    · exact ⟨l :: a, b, rfl, by simp, hb, rfl⟩

theorem Splits.boundary_iff (h : Splits cs ls) : Boundary ls i ↔ Newline.EndsAt cs i := by
  induction h generalizing i
  case last body hb =>
    refine iff_of_false ?_ (Newline.not_endsAt_body hb)
    rintro ⟨a, b, he, ha, hb, _⟩
    have hl := congrArg List.length he
    have hla := List.length_pos_iff.mpr ha
    have hlb := List.length_pos_iff.mpr hb
    simp at hl
    omega
  case line hb ha hr hi =>
    rw [boundary_cons hr.ne_nil, Newline.endsAt_line hb ha]
    simp only [hi]

end Line

theorem splitLines_cut (h : splitLines cs = a ++ b) (hb : b ≠ []) :
    splitLines (cs.take (Line.totalLength a)) = a ++ [⟨0, none⟩] ∧
      splitLines (cs.drop (Line.totalLength a)) = b := by
  have ⟨htake, hdrop⟩ := (Line.splits_iff.mpr h.symm).cut hb
  exact ⟨htake.eq_splitLines.symm, hdrop.eq_splitLines.symm⟩

theorem exists_lines_of_endsAt (h : Newline.EndsAt cs i) :
    ∃ a, splitLines (cs.take i) = a ++ [⟨0, none⟩] ∧
      splitLines cs = a ++ splitLines (cs.drop i) := by
  have ⟨a, b, he, _, hb, hi⟩ := (splits_splitLines cs).boundary_iff.mpr h
  have ⟨htake, hdrop⟩ := splitLines_cut he hb
  exact ⟨a, hi ▸ htake, by rw [hi, hdrop, he]⟩

theorem endsAt_of_splitLines (h : splitLines cs = a ++ b) (ha : a ≠ []) (hb : b ≠ []) :
    Newline.EndsAt cs (Line.totalLength a) :=
  (splits_splitLines cs).boundary_iff.mp ⟨a, b, h, ha, hb, rfl⟩

-- Lines that end before the end of a text stay as they are, whatever follows it.
theorem splitLines_before (h : splitLines (u ++ v) = a ++ b) (hb : b ≠ [])
    (hlt : Line.totalLength a < u.length) (w : List Char) :
    ∃ b', splitLines (u ++ w) = a ++ b' := by
  by_cases ha : a = []
  case pos => exact ⟨_, by rw [ha, List.nil_append]⟩
  case neg =>
    have hend := endsAt_of_splitLines h ha hb
    rw [Newline.endsAt_append_left hlt, ← Newline.endsAt_append_left hlt (v := w)] at hend
    obtain ⟨a', htake, he⟩ := exists_lines_of_endsAt hend
    obtain ⟨htake', _⟩ := splitLines_cut h hb
    rw [List.take_append_of_le_length (Nat.le_of_lt hlt)] at htake htake'
    obtain rfl := List.append_cancel_right (htake.symm.trans htake')
    exact ⟨_, he⟩

-- Lines that begin after the start of a text stay as they are, whatever stands before it.
theorem splitLines_after (h : splitLines (u ++ v) = a ++ b) (hb : b ≠ [])
    (hlt : u.length < Line.totalLength a) (w : List Char) :
    ∃ a', splitLines (w ++ v) = a' ++ b := by
  have ha : a ≠ [] := by
    rintro rfl
    simp at hlt
  have hend := endsAt_of_splitLines h ha hb
  have ⟨_, hdrop⟩ := splitLines_cut h hb
  have ⟨j, hj⟩ := Nat.exists_eq_add_of_lt hlt
  rw [hj, Nat.add_assoc] at hend hdrop
  rw [Newline.endsAt_append_right, ← Newline.endsAt_append_right (u := w)] at hend
  obtain ⟨a', _, he⟩ := exists_lines_of_endsAt hend
  rw [List.drop_length_add_append] at he hdrop
  exact ⟨a', by rw [he, hdrop]⟩

namespace Line

theorem ending_of_newline (h : l.newline = some newline) : l.ending = newline.chars := by
  simp [ending, h]

theorem Splits.rejoin (h : Splits cs ls) :
    (List.zipWith (fun chars l => chars ++ l.ending) (contents cs ls) ls).flatten = cs := by
  induction h
  case last body _ => simp [contents, pureLength, ending]
  case line body rest newline ls _ _ _ hi =>
    have hpure : pureLength ⟨body.length + newline.length, some newline⟩ = body.length := by
      simp [pureLength]
    have hdrop : (body ++ (newline.chars ++ rest)).drop (body.length + newline.length) = rest := by
      simp [Newline.length]
    have hending : ending ⟨body.length + newline.length, some newline⟩ = newline.chars := rfl
    simp [contents, hpure, hdrop, hi, hending]

theorem getElem?_contents (cs : List Char) (a b : List Line) (x : Line) :
    (contents cs (a ++ x :: b))[a.length]? =
      some ((cs.drop (totalLength a)).take x.pureLength) := by
  induction a generalizing cs
  case nil         => simp [contents]
  case cons y a hi => simp [contents, hi, List.drop_drop]

-- Only the newline of a line can spell a carriage return and a line feed.
theorem newline_eq_crlf_iff (hb : ∀ c ∈ body, ¬Newline.isChar c) :
    l.newline = some .crlf ↔ ['\r', '\n'] <:+ body ++ l.ending := by
  constructor
  case mp =>
    intro hn
    rw [ending_of_newline hn]
    exact List.suffix_append ..
  case mpr =>
    rintro ⟨t, ht⟩
    have hend : (body ++ l.ending).getLast? = some '\n' := by simp [← ht]
    have hcr : '\r' ∈ (body ++ l.ending).dropLast := by simp [← ht]
    cases hn : l.newline
    case none =>
      simp [ending, hn] at hend
      exact absurd (by decide) (hb _ (List.mem_of_getLast? hend))
    case some newline =>
      rw [ending_of_newline hn] at hend hcr
      cases newline
      case cr   => simp [Newline.chars] at hend
      case lf   =>
        simp [Newline.chars] at hcr
        exact absurd (by decide) (hb _ hcr)
      case crlf => rfl

-- A line with its place in the text spells its newline.
theorem Within.spells {before after : List Char} (h : l.Within before body after cs) :
    l.Spells ((cs.drop before.length).take l.length) := by
  have htake : (cs.drop before.length).take l.length = body ++ l.ending := by
    rw [h.text_eq, h.length, List.append_assoc, List.drop_left, ← List.length_append,
      List.take_left]
  rw [htake]
  exact ⟨⟨body, rfl, h.body⟩, newline_eq_crlf_iff h.body⟩

end Line

theorem segments_splitLines (cs : List Char) : Line.Segments cs (splitLines cs) where
  length   := totalLength_splitLines cs
  last     :=
    have ⟨a, n, ha, hc⟩ := exists_splitLines cs
    ⟨a, n, ha, fun l hl => (hc l hl).isSome⟩
  boundary := fun _ => (splits_splitLines cs).boundary_iff
  spells   := by
    intro a l b he
    have ⟨u, v, w, hw, hu⟩ := exists_within he
    exact hu ▸ hw.spells

namespace Line

-- Every line but the last is a body and its newline.
theorem Segments.exists_newline (h : Segments cs (a ++ l :: b)) (hb : b ≠ []) :
    ∃ body newline, l = ⟨body.length + newline.length, some newline⟩ ∧
      (cs.drop (totalLength a)).take l.length = body ++ newline.chars ∧
      ∀ c ∈ body, ¬Newline.isChar c := by
  have ⟨a', n, he, hsome⟩ := h.last
  have hmem : l ∈ a' := by
    have hdrop := congrArg List.dropLast he
    rw [List.dropLast_concat, List.dropLast_append_of_ne_nil (by simp),
      List.dropLast_cons_of_ne_nil hb] at hdrop
    simp [← hdrop]
  have ⟨newline, hn⟩ := Option.isSome_iff_exists.mp (hsome l hmem)
  have ⟨body, hchars, hbody⟩ := (h.spells a l b rfl).ending
  rw [ending_of_newline hn] at hchars
  have hlen := congrArg List.length hchars
  have htotal := h.length
  simp only [totalLength_append, totalLength_cons] at htotal
  rw [List.length_take, List.length_drop, Nat.min_eq_left (by omega), List.length_append] at hlen
  refine ⟨body, newline, ?_, hchars, hbody⟩
  cases l
  simp_all [Newline.length]

theorem Segments.tail (h : Segments (u ++ v) (l :: ls)) (hu : l.length = u.length) (hn : ls ≠ [])
    (hends : ∀ i, Newline.EndsAt (u ++ v) (u.length + i) ↔ i = 0 ∨ Newline.EndsAt v i) :
    Segments v ls where
  length   := by
    have htotal := h.length
    simp only [totalLength_cons, List.length_append] at htotal
    omega
  last     := by
    have ⟨a, n, he, hsome⟩ := h.last
    cases a
    case nil      => simp at he; exact absurd he.right hn
    case cons x a => exact ⟨a, n, (List.cons.inj he).right, (List.forall_mem_cons.mp hsome).right⟩
  boundary := by
    intro i
    have hi := h.boundary (u.length + i)
    rw [boundary_cons hn, hends i, hu] at hi
    constructor
    case mp =>
      intro hb
      rcases hi.mp (.inr ⟨i, hb, rfl⟩) with rfl | he
      · -- The first line of `ls` is not the last, so it is not empty.
        obtain ⟨a, b, rfl, ha, hb, hz⟩ := hb
        obtain ⟨x, a, rfl⟩ := List.exists_cons_of_ne_nil ha
        obtain ⟨body, newline, hx, _⟩ := Segments.exists_newline (a := [l]) h (by simp [hb])
        have hpos := newline.length_pos
        simp [hx] at hz
        omega
      · exact he
    case mpr =>
      intro he
      rcases hi.mpr (.inr he) with hz | ⟨j, hb, hj⟩
      · obtain rfl : i = 0 := by omega
        exact absurd he Newline.not_endsAt_zero
      · obtain rfl : i = j := by omega
        exact hb
  spells   := by
    rintro a x b rfl
    have hs := h.spells (l :: a) x b rfl
    rwa [totalLength_cons, hu, List.drop_length_add_append] at hs

-- A newline that ends with the first line is not completed by the next.
theorem Segments.apart (h : Segments (body ++ (newline.chars ++ rest)) (l :: ls))
    (hl : l.length = body.length + newline.length) (hn : ls ≠ []) : Apart newline.chars rest := by
  have hend := (h.boundary l.length).mp ((boundary_cons hn).mpr (.inl rfl))
  obtain ⟨k, hk⟩ := Nat.exists_eq_succ_of_ne_zero (Nat.ne_of_gt newline.length_pos)
  rw [hl, hk, Newline.endsAt_append_right, ← Nat.succ_eq_add_one, ← hk] at hend
  exact (Newline.endsAt_append_length.mp hend).right

theorem Segments.splits (h : Segments cs ls) : Splits cs ls := by
  induction ls generalizing cs
  case nil =>
    obtain ⟨a, n, he, _⟩ := h.last
    simp at he
  case cons l ls hi =>
    by_cases hn : ls = []
    case pos =>
      subst hn
      obtain ⟨a, n, he, _⟩ := h.last
      obtain ⟨_, rfl⟩ : a = [] ∧ l = ⟨n, none⟩ := by cases a <;> simp_all
      obtain ⟨body, hcs, hb⟩ := (h.spells [] _ [] rfl).ending
      obtain rfl : n = cs.length := by simpa using h.length
      obtain rfl : cs = body := by simpa [ending] using hcs
      exact .last hb
    case neg =>
      obtain ⟨body, newline, hl, hchars, hb⟩ := Segments.exists_newline (a := []) h hn
      have hcs : cs = body ++ (newline.chars ++ cs.drop l.length) := by
        rw [← List.append_assoc, ← hchars]
        exact (List.take_append_drop ..).symm
      generalize cs.drop l.length = rest at hcs
      subst hcs hl
      have ha := h.apart rfl hn
      refine .line hb ha (hi ?_)
      rw [← List.append_assoc] at h
      refine h.tail (by simp [Newline.length]) hn fun i => ?_
      rw [List.append_assoc, Newline.endsAt_line hb ha]
      simp [Newline.length]

theorem segments_iff : Segments cs ls ↔ ls = splitLines cs :=
  ⟨fun h => h.splits.eq_splitLines, fun h => h ▸ segments_splitLines cs⟩

end Line

namespace Newline

theorem atStart?_eq_none {c : Char} (hc : ¬isChar c) : atStart? (c :: cs) = none := by
  simp [isChar] at hc
  unfold atStart?
  split <;> simp_all

theorem first?_body (hb : ∀ c ∈ body, ¬isChar c) (cs : List Char) :
    first? (body ++ cs) = (first? cs).map fun m => { m with index := m.index + body.length } := by
  induction body
  case nil => simp
  case cons c body hi =>
    rw [List.forall_mem_cons] at hb
    rw [List.cons_append, first?, atStart?_eq_none hb.left, hi hb.right, Option.map_map]
    simp [Function.comp_def, Nat.add_assoc]

theorem first?_chars (h : Apart newline.chars rest) :
    first? (newline.chars ++ rest) = some ⟨0, newline⟩ := by
  cases newline
  case cr =>
    cases rest
    case nil       => rfl
    case cons c cs =>
      have hc : c ≠ '\n' := fun hc => h ⟨rfl, by simp [hc]⟩
      simp [chars, first?, atStart?, hc]
  case lf   => rfl
  case crlf => rfl

end Newline

-- The first line ends with the first newline.
theorem splitLines_first (cs : List Char) :
    splitLines cs =
      match Newline.first? cs with
      | none   => [⟨cs.length, none⟩]
      | some m => ⟨m.stop, some m.newline⟩ :: splitLines (cs.drop m.stop) := by
  generalize hs : splitLines cs = ls
  cases Line.splits_iff.mpr hs.symm
  case last hb =>
    have hf := Newline.first?_body hb []
    rw [List.append_nil] at hf
    simp [hf, Newline.first?]
  case line hb ha hr =>
    rw [Newline.first?_body hb, Newline.first?_chars ha]
    simp [Newline.Match.stop, ← hr.eq_splitLines, Newline.length]

-- Lines are read off by looking for the next newline from where the last line has ended.
theorem splitLines_drop (cs : List Char) (start : Nat) :
    splitLines (cs.drop start) =
      match Newline.next? cs start with
      | none   => [⟨cs.length - start, none⟩]
      | some m => ⟨m.stop - start, some m.newline⟩ :: splitLines (cs.drop m.stop) := by
  rw [splitLines_first, Newline.next?]
  cases Newline.first? (cs.drop start)
  case none   => simp
  case some m =>
    have hstop : Newline.Match.stop { m with index := m.index + start } = start + m.stop := by
      simp [Newline.Match.stop]
      omega
    simp [hstop]

namespace Newline

variable {start length : Nat}

-- The last line begins where no newline follows.
theorem next?_eq_none_of_last (h : splitLines (cs.drop start) = [⟨length, none⟩]) :
    next? cs start = none ∧ length = cs.length - start := by
  rw [splitLines_drop] at h
  split at h
  case h_1 hn => exact ⟨hn, by simpa using h.symm⟩
  case h_2    => simp at h

-- Every other line ends with the next newline.
theorem exists_next? (h : splitLines (cs.drop start) = l :: ls) (hn : ls ≠ []) :
    ∃ found, next? cs start = some found ∧ l = ⟨found.stop - start, some found.newline⟩ ∧
      splitLines (cs.drop found.stop) = ls := by
  rw [splitLines_drop] at h
  split at h
  case h_1          => simp [hn.symm] at h
  case h_2 found hf =>
    obtain ⟨rfl, rfl⟩ := List.cons.inj h
    exact ⟨found, hf, rfl, rfl⟩

end Newline

-- The lines of a text are its only segmentation at the ends of newlines. Their contents and
-- newlines make up the text, and a search for the next newline finds them one by one.
theorem splitLines_exact (cs : List Char) :
    (∀ ls, Line.Segments cs ls ↔ ls = splitLines cs) ∧
    (List.zipWith (fun chars l => chars ++ l.ending)
      (Line.contents cs (splitLines cs)) (splitLines cs)).flatten = cs ∧
    ∀ start, splitLines (cs.drop start) =
      match Newline.next? cs start with
      | none   => [⟨cs.length - start, none⟩]
      | some m => ⟨m.stop - start, some m.newline⟩ :: splitLines (cs.drop m.stop) :=
  ⟨fun _ => Line.segments_iff, (splits_splitLines cs).rejoin, splitLines_drop cs⟩

-- In a row of newline characters only a carriage return takes the next one in.
example : splitLines ['\r', '\r', '\n', '\n', '\r'] =
    [⟨1, some .cr⟩, ⟨2, some .crlf⟩, ⟨1, some .lf⟩, ⟨1, some .cr⟩, ⟨0, none⟩] := by
  decide

end Caret
