import Caret.Proofs.Document.Reading
import Caret.Proofs.Text.Words

-- The word at a position of a snapshot is the one that the position touches in its line, and its
-- text is read from the text of the snapshot.
namespace Caret

namespace Snapshot

variable {s : Snapshot} {cs chars : List Char} {l : Nat} {p : Position} {isWord : Char → Bool}

theorem exists_lineText_of_wordAt {w : TextRange × String} (hw : s.wordAt isWord p = some w) :
    ∃ t, s.lineText p.line = .ok t ∧ Touches isWord t.toList p.character := by
  rw [wordAt] at hw
  cases hline : s.lineText p.line
  case error e => simp [hline, Except.toOption] at hw
  case ok t =>
    refine ⟨t, rfl, ?_⟩
    by_contra ht
    simp [hline, Except.toOption, wordAtCaret?_eq_none ht] at hw

variable (h : s.content.Tracks cs)

include h

-- One line past the last there may be an empty region, at the end of the text.
theorem region_of_lineCount_le {r : LineRegion} (hl : s.lineCount ≤ l)
    (hr : s.lines.region l = .ok r) : r = ⟨s.length, 0⟩ := by
  rw [lineCount_eq h] at hl
  rcases hl.lt_or_eq with hgt | rfl
  · cases hr.symm.trans (LineIndex.Holds.region_error h.lines hgt)
  · obtain ⟨a, n, he, _⟩ := exists_splitLines cs
    have hlines : s.lines.Holds (a ++ [⟨n, none⟩]) := he ▸ h.lines
    have hlength : (splitLines cs).length = a.length + 1 := by simp [he]
    rw [hlength, hlines.region_past] at hr
    split at hr
    · rw [← hlines.length_eq] at hr
      exact (Except.ok.inj hr).symm
    · cases hr

variable (hm : s.length ≤ maxOffset)

include hm

-- The word is found in the text of the line and then read at its offset in the whole text.
theorem exists_wordAt (hl : p.line < s.lineCount)
    (hc : (Line.contents cs (splitLines cs))[p.line]? = some chars)
    (ht : Touches isWord chars p.character) : ∃ start stop word,
      s.wordAt isWord p = some (⟨⟨p.line, start⟩, ⟨p.line, stop⟩⟩, word) ∧
      WordAt isWord chars p.character start stop ∧
      word.toList = (chars.drop start).take (stop - start) := by
  obtain ⟨r, hr, hle, hchars⟩ := exists_region h hl
  obtain ⟨t, hline, htext⟩ := exists_textIn h hm hle
  obtain rfl : (cs.drop r.offset).take r.length = chars := Option.some.inj (hchars.symm.trans hc)
  obtain ⟨start, stop, hfound, hat⟩ := exists_wordAtCaret ht
  have hstart := hat.nonempty
  have hstop : stop ≤ r.length := hat.inside.trans (List.length_take_le ..)
  obtain ⟨word, hword, hpart⟩ :=
    exists_textIn h hm (show r.offset + start + (stop - start) ≤ s.length by omega)
  refine ⟨start, stop, word, ?_, hat, ?_⟩
  · rw [← htext] at hfound
    simp only [wordAt, lineText, hr, hline, hfound, hword, bind, Except.bind, Except.toOption,
      Option.bind, pure]
  · have hmin : min (stop - start) (r.length - start) = stop - start := by omega
    rw [hpart, List.drop_take, List.take_take, hmin, List.drop_drop]

theorem line_lt_of_touches {t : String} (ht : s.lineText p.line = .ok t)
    (htouch : Touches isWord t.toList p.character) : p.line < s.lineCount := by
  by_contra hl
  have htext := (readsAs h hm).part
  rw [lineText] at ht
  cases hr : s.lines.region p.line
  case error e => simp [hr, bind, Except.bind] at ht
  case ok r =>
    obtain rfl := region_of_lineCount_le h (Nat.not_lt.mp hl) hr
    have hnil : t.toList = [] := by
      simpa using htext s.length 0 t (by simpa [hr, bind, Except.bind] using ht)
    simp [hnil, Touches] at htouch

theorem touches_of_wordAt {w : TextRange × String} (hw : s.wordAt isWord p = some w) :
    p.line < s.lineCount ∧ ∃ chars, (Line.contents cs (splitLines cs))[p.line]? = some chars ∧
      Touches isWord chars p.character := by
  obtain ⟨t, ht, htouch⟩ := exists_lineText_of_wordAt hw
  have hl := line_lt_of_touches h hm ht htouch
  obtain ⟨t', ht', hchars⟩ := exists_lineText h hm hl
  cases ht.symm.trans ht'
  exact ⟨hl, t.toList, hchars, htouch⟩

end Snapshot

namespace Document

-- In any document that can be edited into being, a position has a word if and only if it touches a
-- word character of its line. The word is the longest run there, and its text is that of the range.
-- What a word character is does not matter.
theorem run_words (uri language : String) (version : Int32) (text : String)
    (calls : List DocumentCall)
    (hm : ((ofText uri language version text).run calls).snapshot.length ≤ maxOffset)
    (isWord : Char → Bool) (p : Position) :
    let s := ((ofText uri language version text).run calls).snapshot
    let contents := Line.contents s.text.toList (splitLines s.text.toList)
    ((∃ w, s.wordAt isWord p = some w) ↔ p.line < s.lineCount ∧
      ∃ chars, contents[p.line]? = some chars ∧ Touches isWord chars p.character) ∧
    ∀ range word, s.wordAt isWord p = some (range, word) → ∃ chars start stop,
      contents[p.line]? = some chars ∧ range = ⟨⟨p.line, start⟩, ⟨p.line, stop⟩⟩ ∧
      WordAt isWord chars p.character start stop ∧
      word.toList = (chars.drop start).take (stop - start) := by
  intro s contents
  have hr := (refines_ofText uri language version text).run calls
  have h : s.content.Tracks s.text.toList := hr.content.text.symm ▸ hr.content
  refine ⟨⟨fun ⟨w, hw⟩ => Snapshot.touches_of_wordAt h hm hw, ?_⟩, fun range word hw => ?_⟩
  · rintro ⟨hl, chars, hc, ht⟩
    obtain ⟨start, stop, word, hw, _⟩ := Snapshot.exists_wordAt h hm hl hc ht
    exact ⟨_, hw⟩
  · obtain ⟨hl, chars, hc, ht⟩ := Snapshot.touches_of_wordAt h hm hw
    obtain ⟨start, stop, word', hw', hat, hpart⟩ := Snapshot.exists_wordAt h hm hl hc ht
    cases hw.symm.trans hw'
    exact ⟨chars, start, stop, hc, rfl, hat, hpart⟩

-- The caret stands behind the last word of a line, in front of its newline. Nothing can be found
-- behind the last line, although an empty text is read there.
theorem run_words_lineEnd :
    let s := ((ofText "" "" 1 "ab ä\r\nc").run [.replace 4 0 "ö"]).snapshot
    s.length ≤ maxOffset ∧
    s.wordAt (· != ' ') ⟨0, 5⟩ = some (⟨⟨0, 3⟩, ⟨0, 5⟩⟩, "äö") ∧
    (∃ chars, WordAt (· != ' ') chars 5 3 5 ∧ "äö".toList = (chars.drop 3).take (5 - 3)) ∧
    s.lineText 2 = .ok "" ∧ ¬∃ w, s.wordAt (· != ' ') ⟨2, 0⟩ = some w := by
  have hm : ((ofText "" "" 1 "ab ä\r\nc").run [.replace 4 0 "ö"]).snapshot.length ≤ maxOffset := by
    decide +kernel
  have hword : ((ofText "" "" 1 "ab ä\r\nc").run [.replace 4 0 "ö"]).snapshot.wordAt (· != ' ')
      ⟨0, 5⟩ = some (⟨⟨0, 3⟩, ⟨0, 5⟩⟩, "äö") := by
    decide +kernel
  have hpast : ((ofText "" "" 1 "ab ä\r\nc").run [.replace 4 0 "ö"]).snapshot.lineText 2 =
      .ok "" := by
    decide +kernel
  have hcount : ((ofText "" "" 1 "ab ä\r\nc").run [.replace 4 0 "ö"]).snapshot.lineCount = 2 := by
    decide +kernel
  obtain ⟨_, hfound⟩ := run_words "" "" 1 "ab ä\r\nc" [.replace 4 0 "ö"] hm (· != ' ') ⟨0, 5⟩
  obtain ⟨hsome, _⟩ := run_words "" "" 1 "ab ä\r\nc" [.replace 4 0 "ö"] hm (· != ' ') ⟨2, 0⟩
  obtain ⟨chars, start, stop, _, hrange, hat, hpart⟩ := hfound _ _ hword
  cases hrange
  refine ⟨hm, hword, ⟨chars, hat, hpart⟩, hpast, fun hw => ?_⟩
  exact Nat.lt_irrefl 2 (hcount ▸ (hsome.mp hw).left)

end Document
end Caret
