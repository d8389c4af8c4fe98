import Caret.Proofs.Document.History
import Caret.Proofs.Text.Splitting

-- Reading the text of a snapshot. Whether the text is known to be ASCII or not, it is read as the
-- list of its characters; what is known is never wrong, whatever the history of the document.
namespace Caret

namespace Snapshot

-- What a change of the document alters.
def content (s : Snapshot) : Content :=
  ⟨s.text, s.lines, s.isAscii⟩

-- Questions about the text are answered as the list of the characters says.
structure ReadsAs (s : Snapshot) (cs : List Char) : Prop where
  length    : s.length = cs.length
  lineCount : s.lineCount = (splitLines cs).length
  textIn    : ∀ o n, (∃ t, s.textIn o n = .ok t) ↔ o + n ≤ s.length
  part      : ∀ o n t, s.textIn o n = .ok t → t.toList = (cs.drop o).take n
  charAt    : ∀ o, (∃ c, s.charAt o = .ok c) ↔ o < s.length
  char      : ∀ o c, s.charAt o = .ok c → cs[o]? = some c
  lineText  : ∀ l, l < s.lineCount → ∃ t, s.lineText l = .ok t ∧
    (Line.contents cs (splitLines cs))[l]? = some t.toList
  inBounds  : ∀ p, s.positionInBounds p ↔ ∃ c, s.charAtPosition p = .ok c

variable {s : Snapshot} {cs : List Char} {o n l : Nat} (h : s.content.Tracks cs)

include h

theorem length_eq : s.length = cs.length :=
  h.lines.length_eq

theorem lineCount_eq : s.lineCount = (splitLines cs).length :=
  h.lines.lineCount_eq

theorem charAt_eq_ok_iff {c : Char} : s.charAt o = .ok c ↔ cs[o]? = some c := by
  have hc : charAt? s.text s.isAscii o = cs[o]? := h.text ▸ charAt?_eq h.ascii o
  rw [charAt, hc]
  cases cs[o]? <;> simp

theorem exists_charAt_iff : (∃ c, s.charAt o = .ok c) ↔ o < s.length := by
  simp only [charAt_eq_ok_iff h, length_eq h]
  exact ⟨fun ⟨c, hc⟩ => (List.getElem?_eq_some_iff.mp hc).choose,
    fun ho => ⟨_, List.getElem?_eq_getElem ho⟩⟩

theorem textIn_error (ho : s.length < o + n) : ∃ e, s.textIn o n = .error e := by
  rw [length_eq h, ← h.text] at ho
  have hstop : byteOffset? s.text s.isAscii (o + n) = none := byteOffset?_eq_none ho h.ascii
  rw [textIn, hstop]
  split
  · exact ⟨_, rfl⟩
  · cases byteOffset? s.text s.isAscii o <;> exact ⟨_, rfl⟩

-- The region of a line that exists lies in the text, and the content of the line stands there.
theorem exists_region (hl : l < s.lineCount) :
    ∃ r, s.lines.region l = .ok r ∧ r.offset + r.length ≤ s.length ∧
      (Line.contents cs (splitLines cs))[l]? = some ((cs.drop r.offset).take r.length) := by
  rw [lineCount_eq h] at hl
  obtain ⟨a, x, b, he, rfl⟩ := Line.exists_parts hl
  have hlines : s.lines.Holds (a ++ x :: b) := he ▸ h.lines
  refine ⟨_, hlines.region_eq, ?_, by rw [he, Line.getElem?_contents]⟩
  have htotal := hlines.length_eq
  have hpure : x.pureLength ≤ x.length := Nat.sub_le ..
  simp only [Line.totalLength_append, Line.totalLength_cons] at htotal
  simp only [length]
  omega

theorem positionInBounds_iff (p : Position) :
    s.positionInBounds p ↔ ∃ c, s.charAtPosition p = .ok c := by
  rw [positionInBounds, charAtPosition]
  cases s.offsetAt p
  case error e   => simp [bind, Except.bind]
  case ok offset => exact decide_eq_true_iff.trans (exists_charAt_iff h).symm

variable (hm : s.length ≤ maxOffset)

include hm

-- The characters before the part, in it and behind it are cut at byte offsets.
theorem exists_textIn (ho : o + n ≤ s.length) :
    ∃ t, s.textIn o n = .ok t ∧ t.toList = (cs.drop o).take n := by
  have hl := length_eq h
  have hcut : s.text.toList = cs.take o ++ ((cs.drop o).take n ++ (cs.drop o).drop n) := by
    rw [List.take_append_drop, List.take_append_drop]
    exact h.text
  have hp : (cs.take o).length = o := by
    rw [List.length_take]
    omega
  have hd : (cs.take o ++ (cs.drop o).take n).length = o + n := by
    simp only [List.length_append, List.length_take, List.length_drop]
    omega
  have hstart := byteOffset?_eq hcut h.ascii
  have hstop := byteOffset?_eq (List.append_assoc .. ▸ hcut) h.ascii
  rw [hp] at hstart
  rw [hd, String.utf8Len_append] at hstop
  refine ⟨_, ?_, sliceBytes_eq hcut⟩
  rw [textIn, if_neg (by omega)]
  simp only [content] at hstart hstop
  simp only [hstart, hstop]

theorem exists_lineText (hl : l < s.lineCount) :
    ∃ t, s.lineText l = .ok t ∧ (Line.contents cs (splitLines cs))[l]? = some t.toList := by
  obtain ⟨r, hr, hle, hchars⟩ := exists_region h hl
  obtain ⟨t, ht, hpart⟩ := exists_textIn h hm hle
  refine ⟨t, ?_, hpart ▸ hchars⟩
  simp only [lineText, hr, bind, Except.bind, ht]

theorem readsAs : s.ReadsAs cs where
  length    := length_eq h
  lineCount := lineCount_eq h
  textIn    := by
    intro o n
    refine ⟨fun ⟨t, ht⟩ => ?_, fun ho => ?_⟩
    · by_contra ho
      obtain ⟨e, he⟩ := textIn_error h (Nat.lt_of_not_le ho)
      cases ht.symm.trans he
    · obtain ⟨t, ht, _⟩ := exists_textIn h hm ho
      exact ⟨t, ht⟩
  part      := by
    intro o n t ht
    by_cases ho : o + n ≤ s.length
    case pos =>
      obtain ⟨t', ht', hchars⟩ := exists_textIn h hm ho
      cases ht.symm.trans ht'
      exact hchars
    case neg =>
      obtain ⟨e, he⟩ := textIn_error h (Nat.lt_of_not_le ho)
      cases ht.symm.trans he
  charAt    := fun o => exists_charAt_iff h
  char      := fun o c => (charAt_eq_ok_iff h).mp
  lineText  := fun l => exists_lineText h hm
  inBounds  := positionInBounds_iff h

end Snapshot

namespace Document

-- In any document that can be edited into being, a set flag is right. The text is read as its
-- characters, and it is read the same if the flag is left out.
theorem run_reads (uri language : String) (version : Int32) (text : String)
    (calls : List DocumentCall)
    (hm : ((ofText uri language version text).run calls).snapshot.length ≤ maxOffset) :
    let s := ((ofText uri language version text).run calls).snapshot
    (s.isAscii → isAsciiText s.text) ∧
    s.ReadsAs s.text.toList ∧
    { s with isAscii := false }.ReadsAs s.text.toList := by
  intro s
  have hr := (refines_ofText uri language version text).run calls
  have h : s.content.Tracks s.text.toList := hr.content.text.symm ▸ hr.content
  refine ⟨h.ascii, Snapshot.readsAs h hm, Snapshot.readsAs ⟨rfl, h.lines, ?_⟩ hm⟩
  simp [Snapshot.content]

-- An insertion that is not ASCII, then a change of a line that is not there: the flag is unset and
-- set again.
def failingBatch : DocumentCall :=
  .apply 2 [⟨some ⟨⟨0, 1⟩, ⟨0, 1⟩⟩, "ü"⟩, ⟨some ⟨⟨9, 0⟩, ⟨9, 0⟩⟩, ""⟩]

theorem run_reads_failingBatch :
    let s := ((ofText "" "" 1 "ab\r\nc").run [failingBatch]).snapshot
    s.length ≤ maxOffset ∧ s.isAscii ∧ isAsciiText s.text ∧
    (∃ t, s.textIn 1 2 = .ok t) ∧ ¬(∃ t, s.textIn 3 3 = .ok t) ∧
    ∃ t, s.lineText 0 = .ok t := by
  have hm : ((ofText "" "" 1 "ab\r\nc").run [failingBatch]).snapshot.length ≤ maxOffset := by
    decide +kernel
  have ha : ((ofText "" "" 1 "ab\r\nc").run [failingBatch]).snapshot.isAscii := by decide +kernel
  have hl : ((ofText "" "" 1 "ab\r\nc").run [failingBatch]).snapshot.length = 5 := by decide +kernel
  have hn : 0 < ((ofText "" "" 1 "ab\r\nc").run [failingBatch]).snapshot.lineCount := by
    decide +kernel
  obtain ⟨hflag, hr, _⟩ := run_reads "" "" 1 "ab\r\nc" [failingBatch] hm
  obtain ⟨t, ht, _⟩ := hr.lineText 0 hn
  have hpast : ¬3 + 3 ≤ ((ofText "" "" 1 "ab\r\nc").run [failingBatch]).snapshot.length := by omega
  exact ⟨hm, ha, hflag ha, (hr.textIn 1 2).mpr (by omega), mt (hr.textIn 3 3).mp hpast, t, ht⟩

end Document
end Caret
