import Caret.Proofs.Document.History

-- Offsets and positions of a text. Every offset up to the end of the text has one position, in the
-- line that covers it, and positions are ordered as their offsets are.
namespace Caret

namespace Line

-- The position is that of the offset: its line covers the offset, and its character counts from the
-- start of the line.
def Locates (ls : List Line) (p : Position) (offset : Nat) : Prop :=
  ∃ a x b, ls = a ++ x :: b ∧ p.line = a.length ∧ Covers a x b offset ∧
    offset = totalLength a + p.character

variable {ls : List Line} {p p' : Position} {offset offset' : Nat}

theorem Covers.locates {a b : List Line} {x : Line} (h : Covers a x b offset) :
    Locates (a ++ x :: b) ⟨a.length, offset - totalLength a⟩ offset :=
  ⟨a, x, b, rfl, rfl, h, (Nat.add_sub_cancel' h.start).symm⟩

theorem exists_locates (hn : ls ≠ []) (ho : offset ≤ totalLength ls) :
    ∃ p, Locates ls p offset := by
  have ⟨a, x, b, he, hc⟩ := exists_covers hn ho
  exact ⟨_, he ▸ hc.locates⟩

-- A character of a line, or the end of the last line.
theorem locates_of_character {a b : List Line} {x : Line} {character : Nat}
    (hc : character < x.length ∨ b = [] ∧ character ≤ x.length) :
    Locates (a ++ x :: b) ⟨a.length, character⟩ (totalLength a + character) := by
  refine ⟨a, x, b, rfl, rfl, ⟨Nat.le_add_right .., ?_⟩, rfl⟩
  rcases hc with hc | ⟨hb, hc⟩
  · exact .inl (by omega)
  · rcases Nat.lt_or_eq_of_le hc with hc | hc
    · exact .inl (by omega)
    · exact .inr ⟨by omega, hb⟩

-- A line that covers a larger offset does not come earlier, since all before it has been passed.
theorem Locates.lt (h : Locates ls p offset) (h' : Locates ls p' offset') (ho : offset < offset') :
    p < p' := by
  obtain ⟨a, x, b, he, hl, hc, hp⟩ := h
  obtain ⟨a', x', b', he', hl', hc', hp'⟩ := h'
  rw [Position.lt_def, hl, hl']
  rcases Nat.lt_trichotomy a.length a'.length with hlt | heq | hgt
  · exact .inl hlt
  · obtain ⟨rfl, _⟩ := List.append_inj (he.symm.trans he') heq
    exact .inr ⟨rfl, by omega⟩
  · have hprefix : a' ++ [x'] <+: a :=
      List.prefix_of_prefix_length_le ⟨b', by simp [he']⟩ ⟨x :: b, he.symm⟩ (by simp; omega)
    obtain ⟨c, hc₂⟩ := hprefix
    have htotal := congrArg totalLength hc₂
    simp only [totalLength_append, totalLength_cons, totalLength_nil] at htotal
    have hstart := hc.start
    have hstop := hc'.stop
    omega

end Line

namespace Snapshot

variable {s : Snapshot} {cs : List Char} {p p' : Position} {o o' n : Nat}
  (h : s.lines.Tracks cs)

include h

theorem positionAt_eq (hp : Line.Locates (splitLines cs) p o) : s.positionAt o = .ok p := by
  have ⟨a, x, b, he, hl, hc, ho⟩ := hp
  have h' : s.lines.Holds (a ++ x :: b) := he ▸ h
  have hsub : o - Line.totalLength a = p.character := by omega
  simp only [positionAt, h'.lineOfOffset_eq hc, bind, Except.bind, h'.lineOffset_eq, pure,
    Except.pure, hsub]
  rw [← hl]

theorem offsetAt_eq (hp : Line.Locates (splitLines cs) p o) (hm : o ≤ maxOffset) :
    s.offsetAt p = .ok o := by
  have ⟨a, x, b, he, hl, hc, ho⟩ := hp
  have h' : s.lines.Holds (a ++ x :: b) := he ▸ h
  simp only [offsetAt, LineIndex.offsetOf, hl, h'.region_eq, bind, Except.bind, ← ho, hm, if_true]

theorem exists_locates (ho : o ≤ s.length) : ∃ p, Line.Locates (splitLines cs) p o := by
  rw [length, h.length_eq, ← totalLength_splitLines] at ho
  exact Line.exists_locates (splitLines_ne_nil cs) ho

theorem positionAt_ok_iff : (∃ p, s.positionAt o = .ok p) ↔ o ≤ s.length := by
  constructor
  case mp =>
    intro ⟨p, hp⟩
    by_contra ho
    rw [Nat.not_le, length, h.length_eq, ← totalLength_splitLines] at ho
    simp [positionAt, LineIndex.Holds.lineOfOffset_error h ho, bind, Except.bind] at hp
  case mpr =>
    intro ho
    have ⟨p, hp⟩ := exists_locates h ho
    exact ⟨p, positionAt_eq h hp⟩

-- The position that is given for an offset is the position of the offset.
theorem locates_of_positionAt (hp : s.positionAt o = .ok p) :
    Line.Locates (splitLines cs) p o := by
  have ⟨q, hq⟩ := exists_locates h ((positionAt_ok_iff h).mp ⟨p, hp⟩)
  cases (positionAt_eq h hq).symm.trans hp
  exact hq

theorem position_lt_iff (hp : s.positionAt o = .ok p) (hp' : s.positionAt o' = .ok p') :
    p < p' ↔ o < o' := by
  have hl := locates_of_positionAt h hp
  have hl' := locates_of_positionAt h hp'
  refine ⟨fun hlt => ?_, hl.lt hl'⟩
  by_contra hn
  rcases Nat.lt_or_eq_of_le (Nat.not_lt.mp hn) with hgt | rfl
  · have hgt := hl'.lt hl hgt
    rw [Position.lt_def] at hlt hgt
    omega
  · cases hp.symm.trans hp'
    rw [Position.lt_def] at hlt
    omega

theorem position_le_of_le (hp : s.positionAt o = .ok p) (hp' : s.positionAt o' = .ok p')
    (ho : o ≤ o') : p ≤ p' := by
  rcases Nat.lt_or_eq_of_le ho with hlt | rfl
  · have hlt := (position_lt_iff h hp hp').mpr hlt
    rw [Position.lt_def] at hlt
    rw [Position.le_def]
    omega
  · cases hp.symm.trans hp'
    exact .inr ⟨rfl, Nat.le_refl _⟩

theorem rangeOf_ok_iff : (∃ r, s.rangeOf o n = .ok r) ↔ o ≤ s.length := by
  constructor
  case mp =>
    intro ⟨r, hr⟩
    cases hp : s.positionAt o
    case error e => simp [rangeOf, hp, bind, Except.bind] at hr
    case ok p    => exact (positionAt_ok_iff h).mp ⟨p, hp⟩
  case mpr =>
    intro ho
    have ⟨p, hp⟩ := (positionAt_ok_iff h).mpr ho
    have ⟨p', hp'⟩ := (positionAt_ok_iff h).mpr (Nat.min_le_right (o + n) s.length)
    exact ⟨⟨p, p'⟩, by simp [rangeOf, hp, hp', bind, Except.bind, pure, Except.pure]⟩

omit h in
theorem ends_of_rangeOf {r : TextRange} (hr : s.rangeOf o n = .ok r) :
    s.positionAt o = .ok r.start ∧ s.positionAt (min (o + n) s.length) = .ok r.stop := by
  cases hp : s.positionAt o
  case error e => simp [rangeOf, hp, bind, Except.bind] at hr
  case ok p =>
    cases hp' : s.positionAt (min (o + n) s.length)
    case error e => simp [rangeOf, hp, hp', bind, Except.bind] at hr
    case ok p' =>
      simp only [rangeOf, hp, hp', bind, Except.bind, pure, Except.pure] at hr
      cases hr
      exact ⟨rfl, rfl⟩

variable (hm : s.length ≤ maxOffset)

include hm

theorem offsetAt_of_positionAt (hp : s.positionAt o = .ok p) : s.offsetAt p = .ok o := by
  have ho := (positionAt_ok_iff h).mp ⟨p, hp⟩
  exact offsetAt_eq h (locates_of_positionAt h hp) (Nat.le_trans ho hm)

-- A position in its line, newline included, or at the end of the text is that of its offset.
theorem positionAt_of_offsetAt (hl : p.line < s.lineCount) :
    ∃ length, s.lines.lineLength p.line = .ok length ∧
      (p.character < length ∨ p.line + 1 = s.lineCount ∧ p.character ≤ length →
        ∃ o, s.offsetAt p = .ok o ∧ s.positionAt o = .ok p) := by
  rw [lineCount, h.lineCount_eq] at *
  obtain ⟨a, x, b, he, ha⟩ := Line.exists_parts hl
  have h' : s.lines.Holds (a ++ x :: b) := he ▸ h
  refine ⟨x.length, ha ▸ h'.lineLength_eq, fun hc => ?_⟩
  have hc' : p.character < x.length ∨ b = [] ∧ p.character ≤ x.length := by
    refine hc.imp_right fun ⟨hlast, hc⟩ => ⟨?_, hc⟩
    rw [he, ← ha, List.length_append, List.length_cons] at hlast
    exact List.eq_nil_of_length_eq_zero (by omega)
  have hp : Line.Locates (splitLines cs) p (Line.totalLength a + p.character) := by
    simpa [he, ha] using Line.locates_of_character hc' (a := a)
  have hpos := positionAt_eq h hp
  exact ⟨_, offsetAt_of_positionAt h hm hpos, hpos⟩

end Snapshot

namespace Document

-- Positions in any document that can be edited into being and whose offsets can be addressed.
theorem run_positions (uri language : String) (version : Int32) (text : String)
    (calls : List DocumentCall)
    (hm : ((ofText uri language version text).run calls).snapshot.length ≤ maxOffset) :
    let s := ((ofText uri language version text).run calls).snapshot
    (∀ o, (∃ p, s.positionAt o = .ok p) ↔ o ≤ s.length) ∧
    (∀ o p, s.positionAt o = .ok p → s.offsetAt p = .ok o) ∧
    (∀ o o' p p', s.positionAt o = .ok p → s.positionAt o' = .ok p' → (p < p' ↔ o < o')) ∧
    (∀ p, p.line < s.lineCount → ∃ length, s.lines.lineLength p.line = .ok length ∧
      (p.character < length ∨ p.line + 1 = s.lineCount ∧ p.character ≤ length →
        ∃ o, s.offsetAt p = .ok o ∧ s.positionAt o = .ok p)) ∧
    (∀ o n, (∃ r, s.rangeOf o n = .ok r) ↔ o ≤ s.length) ∧
    ∀ o n r, s.rangeOf o n = .ok r → s.offsetAt r.start = .ok o ∧
      s.offsetAt r.stop = .ok (min (o + n) s.length) ∧ r.start ≤ r.stop := by
  intro s
  have hr := (refines_ofText uri language version text).run calls
  have h : s.lines.Tracks _ := hr.content.lines
  refine ⟨fun o => Snapshot.positionAt_ok_iff h, fun o p => Snapshot.offsetAt_of_positionAt h hm,
    fun o o' p p' => Snapshot.position_lt_iff h, fun p => Snapshot.positionAt_of_offsetAt h hm,
    fun o n => Snapshot.rangeOf_ok_iff h, fun o n r hrange => ?_⟩
  have ⟨hstart, hstop⟩ := Snapshot.ends_of_rangeOf hrange
  have ho := (Snapshot.positionAt_ok_iff h).mp ⟨_, hstart⟩
  exact ⟨Snapshot.offsetAt_of_positionAt h hm hstart, Snapshot.offsetAt_of_positionAt h hm hstop,
    Snapshot.position_le_of_le h hstart hstop (by omega)⟩

-- The edit completes a newline; the offset is the one between its two characters.
theorem run_positions_newline :
    let s := ((ofText "" "" 1 "ä\rb").run [.replace 2 1 "\nö"]).snapshot
    s.length ≤ maxOffset ∧ s.positionAt 2 = .ok ⟨0, 2⟩ ∧ s.offsetAt ⟨0, 2⟩ = .ok 2 := by
  have hm : ((ofText "" "" 1 "ä\rb").run [.replace 2 1 "\nö"]).snapshot.length ≤ maxOffset := by
    decide +kernel
  have hp : ((ofText "" "" 1 "ä\rb").run [.replace 2 1 "\nö"]).snapshot.positionAt 2 =
      .ok ⟨0, 2⟩ := by
    decide +kernel
  obtain ⟨_, hback, _⟩ := run_positions "" "" 1 "ä\rb" [.replace 2 1 "\nö"] hm
  exact ⟨hm, hp, hback 2 _ hp⟩

end Document
end Caret
