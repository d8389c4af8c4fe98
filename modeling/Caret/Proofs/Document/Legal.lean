import Mathlib.Data.Nat.Dist
import Caret.Proofs.Document.Ranged
import Caret.Proofs.Document.Reading

-- Legal positions. Validation leads to the nearest of them. A legal position has an offset from
-- which it comes back, and two of them in order bound a range that can be replaced.
namespace Caret

namespace Line

variable {cs : List Char} {a b : List Line} {x : Line}

theorem length_contents (h : splitLines cs = a ++ x :: b) :
    ∃ chars, (contents cs (splitLines cs))[a.length]? = some chars ∧
      chars.length = x.pureLength := by
  have htotal := totalLength_splitLines cs
  have hpure : x.pureLength ≤ x.length := Nat.sub_le ..
  simp only [h, totalLength_append, totalLength_cons] at htotal
  refine ⟨_, h ▸ getElem?_contents .., ?_⟩
  rw [List.length_take, List.length_drop]
  omega

-- The place in front of a newline is still a place of its line.
theorem pureLength_lt (h : splitLines cs = a ++ x :: b) (hb : b ≠ []) :
    x.pureLength < x.length := by
  have hs : Segments cs (a ++ x :: b) := h ▸ segments_splitLines cs
  obtain ⟨body, newline, rfl, _⟩ := hs.exists_newline hb
  have hpos := newline.length_pos
  simp only [pureLength, Option.map_some, Option.getD_some]
  omega

end Line

namespace Snapshot

-- The line exists, and the character is one of its content or the place behind it.
structure Legal (s : Snapshot) (p : Position) : Prop where
  line      : p.line < s.lineCount
  character : ∃ chars, (Line.contents s.text.toList (splitLines s.text.toList))[p.line]? =
    some chars ∧ p.character ≤ chars.length

-- A legal position whose line is as near as can be, and so is its character in that line.
structure Nearest (s : Snapshot) (p q : Position) : Prop where
  legal     : s.Legal q
  line      : ∀ r, s.Legal r → p.line.dist q.line ≤ p.line.dist r.line
  character : ∀ r, s.Legal r → r.line = q.line →
    p.character.dist q.character ≤ p.character.dist r.character

variable {s : Snapshot} {p q : Position} {o o' : Nat} {a b : List Line} {x : Line}

theorem Nearest.eq_of_legal (h : s.Nearest p q) (hp : s.Legal p) : q = p := by
  have hline := h.line p hp
  rw [Nat.dist_self, Nat.le_zero] at hline
  have hline := Nat.eq_of_dist_eq_zero hline
  have hcharacter := h.character p hp hline
  rw [Nat.dist_self, Nat.le_zero] at hcharacter
  have hcharacter := Nat.eq_of_dist_eq_zero hcharacter
  cases p
  cases q
  simp_all

variable (h : s.content.Tracks s.text.toList)

include h

theorem exists_line {l : Nat} (hl : l < s.lineCount) :
    ∃ a x b, splitLines s.text.toList = a ++ x :: b ∧ a.length = l := by
  rw [lineCount_eq h] at hl
  exact Line.exists_parts hl

theorem legal_iff (he : splitLines s.text.toList = a ++ x :: b) (hl : p.line = a.length) :
    s.Legal p ↔ p.character ≤ x.pureLength := by
  obtain ⟨chars, hchars, hlength⟩ := Line.length_contents he
  constructor
  case mp =>
    intro hp
    obtain ⟨chars', hchars', hle⟩ := hp.character
    rw [hl, hchars] at hchars'
    cases hchars'
    omega
  case mpr =>
    intro hle
    refine ⟨?_, chars, hl ▸ hchars, by omega⟩
    rw [lineCount_eq h, he, hl, List.length_append, List.length_cons]
    omega

-- The line that is taken always exists, so there is always a region.
theorem validate_eq (p : Position) :
    ∃ a x b, splitLines s.text.toList = a ++ x :: b ∧ a.length = min p.line (s.lineCount - 1) ∧
      s.validate p = ⟨a.length, min p.character x.pureLength⟩ := by
  have hpos : 0 < s.lineCount := by
    rw [lineCount_eq h]
    exact List.length_pos_iff.mpr (splitLines_ne_nil _)
  have hlast : min p.line (s.lineCount - 1) < s.lineCount := by omega
  obtain ⟨a, x, b, he, hl⟩ := exists_line h hlast
  have hlines : s.lines.Holds (a ++ x :: b) := he ▸ h.lines
  refine ⟨a, x, b, he, hl, ?_⟩
  simp only [validate, ← hl, hlines.region_eq]

theorem nearest_validate (p : Position) : s.Nearest p (s.validate p) := by
  obtain ⟨a, x, b, he, hl, hv⟩ := validate_eq h p
  rw [hv]
  refine ⟨(legal_iff h he rfl).mpr (Nat.min_le_right ..), fun r hr => ?_, fun r hr hline => ?_⟩
  · have hline := hr.line
    simp only [Nat.dist]
    omega
  · have hcharacter := (legal_iff h he hline).mp hr
    simp only [Nat.dist]
    omega

theorem legal_validate (p : Position) : s.Legal (s.validate p) :=
  (nearest_validate h p).legal

theorem validate_of_legal (hp : s.Legal p) : s.validate p = p :=
  (nearest_validate h p).eq_of_legal hp

theorem Legal.locates (hp : s.Legal p) : ∃ o, Line.Locates (splitLines s.text.toList) p o := by
  obtain ⟨a, x, b, he, hl⟩ := exists_line h hp.line
  have hle := (legal_iff h he hl.symm).mp hp
  have hpure : x.pureLength ≤ x.length := Nat.sub_le ..
  have hc : p.character < x.length ∨ b = [] ∧ p.character ≤ x.length := by
    by_cases hb : b = []
    case pos => exact .inr ⟨hb, by omega⟩
    case neg => exact .inl (Nat.lt_of_le_of_lt hle (Line.pureLength_lt he hb))
  have hlocates := Line.locates_of_character hc (a := a)
  rw [← he, hl] at hlocates
  exact ⟨_, hlocates⟩

variable (hm : s.length ≤ maxOffset)

include hm

theorem Legal.exists_offset (hp : s.Legal p) :
    ∃ o, s.offsetAt p = .ok o ∧ o ≤ s.length ∧ s.positionAt o = .ok p := by
  obtain ⟨o, ho⟩ := hp.locates h
  have hpos := positionAt_eq h.lines ho
  have hle := (positionAt_ok_iff h.lines).mp ⟨p, hpos⟩
  exact ⟨o, offsetAt_of_positionAt h.lines hm hpos, hle, hpos⟩

end Snapshot

namespace Document

variable {d : Document} {cs : List Char} {version : Int32} {p q : Position} {o o' : Nat}

theorem apply_of_change {c : Content} {undo : Content.Undo} {x : Change} (hv : d.version < version)
    (hx : d.content.change x = .ok (c, undo)) :
    d.apply version [x] = ({ d with content := c, version }, none) := by
  have hb : d.content.batch [] [x] = (c, [undo], none) := by
    rw [Content.batch, hx]
    rfl
  exact apply_of_batch hv hb

-- The change of a range whose ends have offsets in order is accepted.
theorem apply_between (h : d.content.Tracks cs) (hv : d.version < version)
    (hp : d.snapshot.offsetAt p = .ok o) (hq : d.snapshot.offsetAt q = .ok o') (ho : o ≤ o')
    (ho' : o' ≤ d.snapshot.length) (text : String) :
    ∃ d', d.apply version [⟨some ⟨p, q⟩, text⟩] = (d', none) ∧ d'.version = version ∧
      d'.text.toList = cs.take o ++ text.toList ++ cs.drop o' := by
  have hl : d.snapshot.length = cs.length := h.lines.length_eq
  have hadd : o + (o' - o) = o' := by omega
  have hs : spliceChars? cs o (o' - o) text.toList = some _ := if_pos (by omega)
  obtain ⟨c, removed, hc, ht, _⟩ := h.replace_some hs
  replace hp : d.content.lines.offsetOf p = .ok o := hp
  replace hq : d.content.lines.offsetOf q = .ok o' := hq
  have hx : d.content.change ⟨some ⟨p, q⟩, text⟩ =
      .ok (c, .replace o text.length removed d.content.isAscii) := by
    simp only [Content.change, hp, hq, Except.mapError, bind, Except.bind,
      if_neg (Nat.not_lt.mpr ho), hc]
  refine ⟨_, apply_of_change hv hx, rfl, ?_⟩
  rw [hadd] at ht
  exact ht.text

-- In any document that can be edited into being, validation leads to the nearest legal position and
-- changes no legal one. The offset of such a position lies in the text and has that position, and
-- the text between two of them in order can be replaced.
theorem run_validates (uri language : String) (version : Int32) (text : String)
    (calls : List DocumentCall)
    (hm : ((ofText uri language version text).run calls).snapshot.length ≤ maxOffset) :
    let d := (ofText uri language version text).run calls
    let s := d.snapshot
    (∀ p, s.Nearest p (s.validate p)) ∧
    (∀ p, s.Legal p → s.validate p = p) ∧
    (∀ p, s.validate (s.validate p) = s.validate p) ∧
    (∀ p, ∃ o, s.offsetAt (s.validate p) = .ok o ∧ o ≤ s.length ∧
      s.positionAt o = .ok (s.validate p)) ∧
    ∀ p q version' inserted, s.validate p ≤ s.validate q → d.version < version' →
      ∃ o o' d', s.offsetAt (s.validate p) = .ok o ∧ s.offsetAt (s.validate q) = .ok o' ∧
        d.apply version' [⟨some ⟨s.validate p, s.validate q⟩, inserted⟩] = (d', none) ∧
        d'.version = version' ∧
        d'.text.toList = d.text.toList.take o ++ inserted.toList ++ d.text.toList.drop o' := by
  intro d s
  have hr := (refines_ofText uri language version text).run calls
  have h : s.content.Tracks s.text.toList := hr.content.text.symm ▸ hr.content
  have hlegal := Snapshot.legal_validate h
  refine ⟨Snapshot.nearest_validate h, fun p => Snapshot.validate_of_legal h,
    fun p => Snapshot.validate_of_legal h (hlegal p), fun p => (hlegal p).exists_offset h hm, ?_⟩
  intro p q version' inserted hpq hv
  obtain ⟨o, ho, _, hpos⟩ := (hlegal p).exists_offset h hm
  obtain ⟨o', ho', hle', hpos'⟩ := (hlegal q).exists_offset h hm
  have hle : o ≤ o' := by
    by_contra hlt
    have hqp := (Snapshot.position_lt_iff h.lines hpos' hpos).mpr (Nat.lt_of_not_le hlt)
    rw [Position.le_def] at hpq
    rw [Position.lt_def] at hqp
    omega
  obtain ⟨d', hd'⟩ := apply_between h hv ho ho' hle hle' inserted
  exact ⟨o, o', d', ho, ho', hd'⟩

-- The edit completes a newline. One position lies behind its line and one behind the last line.
theorem run_validates_outside :
    let d := (ofText "" "" 1 "ab\rc").run [.replace 3 0 "\nü"]
    let s := d.snapshot
    s.length ≤ maxOffset ∧ s.validate ⟨0, 9⟩ = ⟨0, 2⟩ ∧ s.validate ⟨7, 1⟩ = ⟨1, 1⟩ ∧
    s.Legal ⟨0, 2⟩ ∧
    ∃ d', d.apply 2 [⟨some ⟨⟨0, 2⟩, ⟨1, 1⟩⟩, "x"⟩] = (d', none) ∧
      d'.text.toList = ['a', 'b', 'x', 'c'] := by
  have hm : ((ofText "" "" 1 "ab\rc").run [.replace 3 0 "\nü"]).snapshot.length ≤ maxOffset := by
    decide +kernel
  have hp : ((ofText "" "" 1 "ab\rc").run [.replace 3 0 "\nü"]).snapshot.validate ⟨0, 9⟩ =
      ⟨0, 2⟩ := by
    decide +kernel
  have hq : ((ofText "" "" 1 "ab\rc").run [.replace 3 0 "\nü"]).snapshot.validate ⟨7, 1⟩ =
      ⟨1, 1⟩ := by
    decide +kernel
  have ho : ((ofText "" "" 1 "ab\rc").run [.replace 3 0 "\nü"]).snapshot.offsetAt ⟨0, 2⟩ =
      .ok 2 := by
    decide +kernel
  have ho' : ((ofText "" "" 1 "ab\rc").run [.replace 3 0 "\nü"]).snapshot.offsetAt ⟨1, 1⟩ =
      .ok 5 := by
    decide +kernel
  have ht : ((ofText "" "" 1 "ab\rc").run [.replace 3 0 "\nü"]).text = "ab\r\nüc" := by
    decide +kernel
  have hv : ((ofText "" "" 1 "ab\rc").run [.replace 3 0 "\nü"]).version < 2 := by decide +kernel
  obtain ⟨hnearest, _, _, _, hbatch⟩ :=
    run_validates "" "" 1 "ab\rc" [.replace 3 0 "\nü"] hm
  have hlegal := (hnearest ⟨0, 9⟩).legal
  have hpq := hbatch ⟨0, 9⟩ ⟨7, 1⟩ 2 "x"
  rw [hp] at hlegal
  rw [hp, hq] at hpq
  obtain ⟨o, o', d', hoff, hoff', hd', _, htext⟩ := hpq (by decide) hv
  cases ho.symm.trans hoff
  cases ho'.symm.trans hoff'
  rw [ht] at htext
  exact ⟨hm, hp, hq, hlegal, d', hd', htext⟩

end Document
end Caret
