import Caret.Proofs.Line.Run

-- Questions about the lines of an index. The tree answers each of them as a reading of all lines
-- from the first on would, whatever edits have shaped it.
namespace Caret

namespace Line

-- The line as it appears in a list with offsets.
@[simps]
def infoAt (x : Line) (offset : Nat) : LineInfo :=
  ⟨offset, x.length, x.newline⟩

end Line

-- The part of the text that the line covers, without its newline.
def LineInfo.region (l : LineInfo) : LineRegion :=
  ⟨l.offset, l.pureLength⟩

-- What a line that has been found tells of itself.
def Located.info (l : Located) : LineInfo :=
  l.line.infoAt l.start

namespace Line

variable {ls a b : List Line} {x : Line} {l : LineInfo} {k n o : Nat}

theorem withOffsets_cons (k : Nat) (x : Line) (ls : List Line) :
    withOffsets k (x :: ls) = x.infoAt k :: withOffsets (k + x.length) ls :=
  rfl

theorem withOffsets_append (k : Nat) (a b : List Line) :
    withOffsets k (a ++ b) = withOffsets k a ++ withOffsets (k + totalLength a) b := by
  induction a generalizing k
  case nil         => simp [withOffsets]
  case cons x a hi => simp [withOffsets_cons, hi, Nat.add_assoc]

@[simp]
theorem length_withOffsets (k : Nat) (ls : List Line) : (withOffsets k ls).length = ls.length := by
  induction ls generalizing k
  case nil          => rfl
  case cons x ls hi => simp [withOffsets_cons, hi]

theorem sum_withOffsets (k : Nat) (ls : List Line) :
    ((withOffsets k ls).map (·.length)).sum = totalLength ls := by
  induction ls generalizing k
  case nil          => rfl
  case cons x ls hi => simp [withOffsets_cons, hi]

theorem getElem?_withOffsets (k : Nat) (a b : List Line) (x : Line) :
    (withOffsets k (a ++ x :: b))[a.length]? = some (x.infoAt (k + totalLength a)) := by
  simp [withOffsets_append, withOffsets_cons]

-- A line that is found by its number, between those before and after it.
theorem getElem?_withOffsets_eq_some :
    (withOffsets k ls)[n]? = some l ↔
      ∃ a x b, ls = a ++ x :: b ∧ a.length = n ∧ l = x.infoAt (k + totalLength a) := by
  constructor
  case mp =>
    intro h
    have ⟨hn, _⟩ := List.getElem?_eq_some_iff.mp h
    rw [length_withOffsets] at hn
    obtain ⟨a, x, b, rfl, rfl⟩ := exists_parts hn
    rw [getElem?_withOffsets, Option.some_inj] at h
    exact ⟨a, x, b, rfl, rfl, h.symm⟩
  case mpr =>
    rintro ⟨a, x, b, rfl, rfl, rfl⟩
    exact getElem?_withOffsets k a b x

theorem le_of_mem_withOffsets (h : l ∈ withOffsets k ls) :
    k ≤ l.offset ∧ l.offset + l.length ≤ k + totalLength ls := by
  have ⟨n, hn⟩ := List.mem_iff_getElem?.mp h
  obtain ⟨a, x, b, rfl, _, rfl⟩ := getElem?_withOffsets_eq_some.mp hn
  simp
  omega

-- The lines that start up to an offset are those before the line that covers it, and that line.
theorem Covers.countP_eq (h : Covers a x b o) :
    (withOffsets 0 (a ++ x :: b)).countP (·.offset ≤ o) = a.length + 1 := by
  have ha : (withOffsets 0 a).countP (·.offset ≤ o) = a.length := by
    rw [← length_withOffsets 0 a, List.countP_eq_length]
    intro l hl
    have hle := le_of_mem_withOffsets hl
    have hstart := h.start
    simp
    omega
  have hb : (withOffsets (0 + totalLength a + x.length) b).countP (·.offset ≤ o) = 0 := by
    rw [List.countP_eq_zero]
    intro l hl
    have hle := le_of_mem_withOffsets hl
    rcases h.stop with hlt | ⟨_, rfl⟩
    · simp
      omega
    · simp [withOffsets] at hl
  rw [withOffsets_append, withOffsets_cons, List.countP_append, ha, List.countP_cons, hb]
  simp [h.start]

-- Lines start one after the other, if none but the last is empty.
theorem pairwise_withOffsets (ha : ∀ y ∈ a, 0 < y.length) (k : Nat) :
    (withOffsets k (a ++ [x])).Pairwise (·.offset < ·.offset) := by
  induction a generalizing k
  case nil => simp [withOffsets]
  case cons y a hi =>
    rw [List.forall_mem_cons] at ha
    rw [List.cons_append, withOffsets_cons, List.pairwise_cons]
    refine ⟨fun l hl => ?_, hi ha.right _⟩
    have hle := le_of_mem_withOffsets hl
    have hpos := ha.left
    simp
    omega

end Line

namespace LineIndex

variable {ix : LineIndex} {ls a b : List Line} {x : Line} {n o : Nat} {cs : List Char}

namespace Holds

theorem length_eq (h : ix.Holds ls) : ix.length = Line.totalLength ls :=
  h.charCount_eq

theorem lines_eq (h : ix.Holds ls) : ix.lines = Line.withOffsets 0 ls := by
  rw [LineIndex.lines, h.lines]

-- Where a line is found by its number and by an offset.
theorem locateLine_eq (h : ix.Holds (a ++ x :: b)) :
    ∃ slot, ix.locateLine a.length = .ok ⟨⟨slot, x⟩, a.length, Line.totalLength a⟩ := by
  have ⟨slot, hl⟩ := h.line?_eq
  exact ⟨slot, by rw [locateLine, hl]⟩

theorem locateLine_error (h : ix.Holds ls) (hn : ls.length ≤ n) :
    ix.locateLine n = .error (.lineOutOfBounds n ix.lineCount) := by
  rw [locateLine, h.line?_eq_none hn]

theorem locateOffset_eq (h : ix.Holds (a ++ x :: b)) (hc : Line.Covers a x b o) :
    ∃ slot, ix.locateOffset o = .ok ⟨⟨slot, x⟩, a.length, Line.totalLength a⟩ := by
  have ⟨slot, hl⟩ := h.lineAt?_eq hc
  exact ⟨slot, by rw [locateOffset, hl]⟩

theorem locateOffset_error (h : ix.Holds ls) (ho : Line.totalLength ls < o) :
    ix.locateOffset o = .error (.offsetOutOfBounds o ix.length) := by
  rw [locateOffset, h.lineAt?_eq_none ho]

theorem lineOffset_eq (h : ix.Holds (a ++ x :: b)) :
    ix.lineOffset a.length = .ok (Line.totalLength a) := by
  have ⟨_, hl⟩ := h.locateLine_eq
  simp only [lineOffset, hl, Except.map]

theorem lineLength_eq (h : ix.Holds (a ++ x :: b)) : ix.lineLength a.length = .ok x.length := by
  have ⟨_, hl⟩ := h.locateLine_eq
  simp only [lineLength, hl, Except.map]

theorem lineOfOffset_eq (h : ix.Holds (a ++ x :: b)) (hc : Line.Covers a x b o) :
    ix.lineOfOffset o = .ok a.length := by
  have ⟨_, hl⟩ := h.locateOffset_eq hc
  simp only [lineOfOffset, hl, Except.map]

theorem regionOfOffset_eq (h : ix.Holds (a ++ x :: b)) (hc : Line.Covers a x b o) :
    ix.regionOfOffset o = .ok ⟨Line.totalLength a, x.pureLength⟩ := by
  have ⟨_, hl⟩ := h.locateOffset_eq hc
  simp only [regionOfOffset, hl, Except.map, Located.region]

theorem lineOfOffset_error (h : ix.Holds ls) (ho : Line.totalLength ls < o) :
    ix.lineOfOffset o = .error (.offsetOutOfBounds o ix.length) := by
  simp only [lineOfOffset, h.locateOffset_error ho, Except.map]

theorem regionOfOffset_error (h : ix.Holds ls) (ho : Line.totalLength ls < o) :
    ix.regionOfOffset o = .error (.offsetOutOfBounds o ix.length) := by
  simp only [regionOfOffset, h.locateOffset_error ho, Except.map]

theorem region_eq (h : ix.Holds (a ++ x :: b)) :
    ix.region a.length = .ok ⟨Line.totalLength a, x.pureLength⟩ := by
  have ⟨_, hl⟩ := h.line?_eq
  simp only [region, hl, Located.region]

-- One line past the last.
theorem region_past (h : ix.Holds (a ++ [x])) :
    ix.region (a.length + 1) =
      if 0 < x.length then .ok ⟨Line.totalLength (a ++ [x]), 0⟩
      else .error (.lineOutOfBounds (a.length + 1) ix.lineCount) := by
  have ⟨_, hl⟩ := h.line?_eq
  have hcount : ix.lineCount = a.length + 1 := h.lineCount_eq.trans (by simp)
  simp [region, h.line?_eq_none, hl, hcount, Located.stop]

theorem region_error (h : ix.Holds ls) (hn : ls.length < n) :
    ix.region n = .error (.lineOutOfBounds n ix.lineCount) := by
  obtain ⟨m, rfl⟩ := Nat.exists_eq_succ_of_ne_zero (Nat.ne_zero_of_lt hn)
  simp only [region, h.line?_eq_none (Nat.le_of_lt hn), h.line?_eq_none (Nat.le_of_lt_succ hn)]

end Holds

-- The line with a number, looked up in the list of all lines.
def listedLine (ix : LineIndex) (n : Nat) : Except LineError LineInfo :=
  match ix.lines[n]? with
  | some l => .ok l
  | none   => .error (.lineOutOfBounds n ix.lines.length)

-- Line `n` is the one that an offset falls into: the offset lies in it, or it is the last line and
-- the offset is the end of the text.
structure FallsInto (ix : LineIndex) (o n : Nat) (l : LineInfo) : Prop where
  listed : ix.lines[n]? = some l
  inside : l.offset ≤ o ∧ o < l.offset + l.length ∨ o = ix.length ∧ n + 1 = ix.lines.length

namespace Holds

theorem listed_iff {l : LineInfo} (h : ix.Holds ls) :
    ix.lines[n]? = some l ↔
      ∃ a x b, ls = a ++ x :: b ∧ a.length = n ∧ l = x.infoAt (Line.totalLength a) := by
  simpa [h.lines_eq] using Line.getElem?_withOffsets_eq_some (k := 0)

theorem listed_eq (h : ix.Holds (a ++ x :: b)) :
    ix.lines[a.length]? = some (x.infoAt (Line.totalLength a)) :=
  h.listed_iff.mpr ⟨a, x, b, rfl, rfl, rfl⟩

theorem listed_eq_none (h : ix.Holds ls) (hn : ls.length ≤ n) : ix.lines[n]? = none := by
  simpa [h.lines_eq] using hn

-- What is found by a number is what the list has under it.
theorem locateLine_info (h : ix.Holds ls) (n : Nat) :
    (ix.locateLine n).map Located.info = ix.listedLine n := by
  by_cases hn : n < ls.length
  case pos =>
    obtain ⟨a, x, b, rfl, rfl⟩ := Line.exists_parts hn
    obtain ⟨_, hl⟩ := h.locateLine_eq
    rw [hl, listedLine, h.listed_eq]
    rfl
  case neg =>
    replace hn := Nat.le_of_not_lt hn
    rw [h.locateLine_error hn, listedLine, h.listed_eq_none hn, h.lines_eq, Line.length_withOffsets,
      lineCount, h.lineCount_eq]
    rfl

theorem fallsInto_iff {l : LineInfo} (h : ix.Holds ls) :
    ix.FallsInto o n l ↔
      ∃ a x b, ls = a ++ x :: b ∧ a.length = n ∧ l = x.infoAt (Line.totalLength a) ∧
        Line.Covers a x b o := by
  constructor
  case mp =>
    intro hf
    obtain ⟨a, x, b, rfl, rfl, rfl⟩ := h.listed_iff.mp hf.listed
    refine ⟨a, x, b, rfl, rfl, rfl, ?_⟩
    rcases hf.inside with ⟨hle, hlt⟩ | ⟨ho, hn⟩
    · exact ⟨hle, .inl hlt⟩
    · have hb : b = [] := by
        simp [h.lines_eq] at hn
        exact hn
      subst hb
      have ho' : o = Line.totalLength a + x.length := by simp [ho, h.length_eq]
      exact ⟨by omega, .inr ⟨ho', rfl⟩⟩
  case mpr =>
    rintro ⟨a, x, b, rfl, rfl, rfl, hc⟩
    refine ⟨h.listed_eq, ?_⟩
    rcases hc.stop with hlt | ⟨ho, rfl⟩
    · exact .inl ⟨hc.start, hlt⟩
    · exact .inr ⟨by simp [ho, h.length_eq], by simp [h.lines_eq]⟩

theorem exists_fallsInto (h : ix.Holds ls) (hn : ls ≠ []) (ho : o ≤ ix.length) :
    ∃ n l, ix.FallsInto o n l := by
  have ⟨a, x, b, he, hc⟩ := Line.exists_covers hn (h.length_eq ▸ ho)
  exact ⟨_, _, h.fallsInto_iff.mpr ⟨a, x, b, he, rfl, rfl, hc⟩⟩

theorem lineOfOffset_of_fallsInto {l : LineInfo} (h : ix.Holds ls) (hf : ix.FallsInto o n l) :
    ix.lineOfOffset o = .ok n ∧ ix.regionOfOffset o = .ok l.region ∧
      ix.lines.countP (·.offset ≤ o) = n + 1 := by
  obtain ⟨a, x, b, rfl, rfl, rfl, hc⟩ := h.fallsInto_iff.mp hf
  exact ⟨h.lineOfOffset_eq hc, h.regionOfOffset_eq hc, by rw [h.lines_eq, hc.countP_eq]⟩

theorem region_listed (h : ix.Holds ls) (hne : ls ≠ []) (n : Nat) :
    ix.region n =
      match ix.lines[n]? with
      | some l => .ok l.region
      | none   =>
        if n = ix.lines.length ∧ ix.lines.getLast?.any (0 < ·.length) then .ok ⟨ix.length, 0⟩
        else .error (.lineOutOfBounds n ix.lineCount) := by
  rcases Nat.lt_trichotomy n ls.length with hlt | rfl | hgt
  · obtain ⟨a, x, b, rfl, rfl⟩ := Line.exists_parts hlt
    rw [h.region_eq, h.listed_eq]
    rfl
  · obtain ⟨a, x, rfl⟩ := List.eq_nil_or_concat' ls |>.resolve_left hne
    rw [h.listed_eq_none (Nat.le_refl _), List.length_append, List.length_singleton, h.region_past]
    simp [h.lines_eq, h.length_eq, Line.withOffsets_append, Line.withOffsets]
  · rw [h.listed_eq_none (Nat.le_of_lt hgt), h.region_error hgt]
    simp [h.lines_eq, Nat.ne_of_gt hgt]

end Holds

theorem countP_between {o' : Nat} (h : o ≤ o') (ls : List LineInfo) :
    ls.countP (·.offset ≤ o) + ls.countP (fun l => o < l.offset ∧ l.offset ≤ o') =
      ls.countP (·.offset ≤ o') := by
  induction ls
  case nil => rfl
  case cons l ls hi =>
    simp only [List.countP_cons, decide_eq_true_eq]
    grind

-- All questions are answered as the list of all lines says.
structure AnswersAsListed (ix : LineIndex) : Prop where
  lineCount    : ix.lineCount = ix.lines.length
  length       : ix.length = (ix.lines.map (·.length)).sum
  offset       : ∀ n l, ix.lines[n]? = some l → l.offset = ((ix.lines.take n).map (·.length)).sum
  ascending    : ix.lines.Pairwise (·.offset < ·.offset)
  lineOffset   : ∀ n, ix.lineOffset n = (ix.listedLine n).map (·.offset)
  lineLength   : ∀ n, ix.lineLength n = (ix.listedLine n).map (·.length)
  lineNewline  : ∀ n, ix.lineNewline n = (ix.listedLine n).map (·.newline)
  region       : ∀ n, ix.region n =
    match ix.lines[n]? with
    | some l => .ok l.region
    | none   =>
      if n = ix.lines.length ∧ ix.lines.getLast?.any (0 < ·.length) then .ok ⟨ix.length, 0⟩
      else .error (.lineOutOfBounds n ix.lineCount)
  ofOffset     : ∀ o, o ≤ ix.length → ∃ n l, ix.FallsInto o n l ∧
    (∀ n' l', ix.FallsInto o n' l' → n' = n) ∧
    ix.lineOfOffset o = .ok n ∧ ix.regionOfOffset o = .ok l.region
  beyond       : ∀ o, ix.length < o →
    ix.lineOfOffset o = .error (.offsetOutOfBounds o ix.length) ∧
    ix.regionOfOffset o = .error (.offsetOutOfBounds o ix.length)
  inRange      : ∀ o n, 0 < n → o + n ≤ ix.length → ∃ first last,
    ix.lineOfOffset o = .ok first ∧ ix.lineOfOffset (o + n) = .ok last ∧ first ≤ last ∧
    ix.lineCountInRange o n =
      .ok (1 + ix.lines.countP fun l => o < l.offset ∧ l.offset ≤ o + n)

theorem Holds.answersAsListed (h : ix.Holds ls) (hn : ls ≠ [])
    (ha : ix.lines.Pairwise (·.offset < ·.offset)) : ix.AnswersAsListed where
  lineCount   := by
    rw [h.lines_eq, Line.length_withOffsets]
    exact h.lineCount_eq
  length      := by rw [h.lines_eq, Line.sum_withOffsets, h.length_eq]
  offset      := by
    intro n l hl
    obtain ⟨a, x, b, rfl, rfl, rfl⟩ := h.listed_iff.mp hl
    rw [h.lines_eq, Line.withOffsets_append, List.take_left' (by simp), Line.sum_withOffsets]
    rfl
  ascending   := ha
  lineOffset  := by
    intro n
    rw [← h.locateLine_info, LineIndex.lineOffset]
    cases ix.locateLine n <;> rfl
  lineLength  := by
    intro n
    rw [← h.locateLine_info, LineIndex.lineLength]
    cases ix.locateLine n <;> rfl
  lineNewline := by
    intro n
    rw [← h.locateLine_info, LineIndex.lineNewline]
    cases ix.locateLine n <;> rfl
  region      := h.region_listed hn
  ofOffset    := by
    intro o ho
    have ⟨n, l, hf⟩ := h.exists_fallsInto hn ho
    have ⟨hline, hregion, _⟩ := h.lineOfOffset_of_fallsInto hf
    refine ⟨n, l, hf, fun n' l' hf' => ?_, hline, hregion⟩
    exact Except.ok.inj ((h.lineOfOffset_of_fallsInto hf').left.symm.trans hline)
  beyond      := by
    intro o ho
    rw [h.length_eq] at ho
    exact ⟨h.lineOfOffset_error ho, h.regionOfOffset_error ho⟩
  inRange     := by
    intro o n hpos ho
    have ⟨first, _, hf⟩ := h.exists_fallsInto hn (Nat.le_trans (Nat.le_add_right o n) ho)
    have ⟨last, _, hl⟩ := h.exists_fallsInto hn ho
    have ⟨hfirst, _, hcf⟩ := h.lineOfOffset_of_fallsInto hf
    have ⟨hlast, _, hcl⟩ := h.lineOfOffset_of_fallsInto hl
    have hbetween := countP_between (Nat.le_add_right o n) ix.lines
    refine ⟨first, last, hfirst, hlast, by omega, ?_⟩
    simp only [lineCountInRange, Nat.ne_of_gt hpos, if_false, hfirst, hlast, bind, Except.bind,
      pure, Except.pure]
    congr 1
    omega

theorem Tracks.answersAsListed (h : ix.Tracks cs) : ix.AnswersAsListed := by
  have ⟨a, n, he, hc⟩ := exists_splitLines cs
  refine Holds.answersAsListed h (splitLines_ne_nil cs) ?_
  rw [h.lines_eq, he]
  exact Line.pairwise_withOffsets (fun l hl => (hc l hl).pos) 0

-- Whatever the history of an index.
theorem run_answers (text : Option String) (es : List LineEdit) :
    ((start text).run es).AnswersAsListed :=
  (tracks_run text es).answersAsListed

-- The edit completes a newline. The range begins inside the first line and ends where the second
-- one starts.
theorem run_answers_completed :
    1 + 2 ≤ ((start (some "a\rb\nc")).run [.replace 2 1 ""]).length ∧
    ((start (some "a\rb\nc")).run [.replace 2 1 ""]).lineCountInRange 1 2 = .ok 2 := by
  have ho : 1 + 2 ≤ ((start (some "a\rb\nc")).run [.replace 2 1 ""]).length := by decide +kernel
  have hcount : (((start (some "a\rb\nc")).run [.replace 2 1 ""]).lines.countP fun l =>
      1 < l.offset ∧ l.offset ≤ 1 + 2) = 1 := by
    decide +kernel
  obtain ⟨_, _, _, _, _, hr⟩ :=
    (run_answers (some "a\rb\nc") [.replace 2 1 ""]).inRange 1 2 (by decide) ho
  exact ⟨ho, by rw [hr, hcount]⟩

end LineIndex
end Caret
