import Caret.Proofs.Line.Queries
import Caret.Proofs.Text.Splitting

-- What an edit leaves alone. Lines that end before the edited part stay where they are, and lines
-- that begin after it move as a whole, also where the ends of the edit complete or break a newline.
namespace Caret.LineIndex

variable {ix ix' : LineIndex} {cs : List Char} {o n i : Nat} {text : String} {l : LineInfo}

-- The characters before, in and after the part that an accepted replacement replaces.
theorem Tracks.exists_parts_of_replace (h : ix.Tracks cs) (hr : ix.replace o n text = .ok ix') :
    ∃ p d q, cs = p ++ (d ++ q) ∧ o = p.length ∧ n = d.length ∧
      ix'.Tracks (p ++ (text.toList ++ q)) := by
  cases hs : spliceChars? cs o n text.toList
  case none =>
    have ⟨e, he⟩ := h.replace_none hs
    cases hr.symm.trans he
  case some cs' =>
    have ⟨p, d, q, hc, ho, hn, hc'⟩ := spliceChars?_eq_some.mp hs
    have ⟨ix'', hr', h'⟩ := h.replace_some hs
    cases hr.symm.trans hr'
    exact ⟨p, d, q, hc, ho, hn, hc' ▸ h'⟩

theorem Tracks.replace_before (h : ix.Tracks cs) (hr : ix.replace o n text = .ok ix')
    (hl : ix.lines[i]? = some l) (hlt : l.offset + l.length < o) : ix'.lines[i]? = some l := by
  obtain ⟨p, d, q, rfl, rfl, rfl, h'⟩ := h.exists_parts_of_replace hr
  obtain ⟨a, x, b, he, rfl, rfl⟩ := Holds.listed_iff h |>.mp hl
  have hsum : Line.totalLength (a ++ [x]) < p.length := by simpa using hlt
  have hb : b ≠ [] := by
    rintro rfl
    have ht := totalLength_splitLines (p ++ (d ++ q))
    rw [he, List.length_append] at ht
    omega
  replace he : splitLines (p ++ (d ++ q)) = (a ++ [x]) ++ b := by simpa using he
  obtain ⟨b', he'⟩ := splitLines_before he hb hsum (text.toList ++ q)
  exact Holds.listed_iff h' |>.mpr ⟨a, x, b', by simpa using he', rfl, rfl⟩

theorem Tracks.replace_after (h : ix.Tracks cs) (hr : ix.replace o n text = .ok ix')
    (hl : ix.lines[i]? = some l) (hlt : o + n < l.offset) :
    ∃ j offset : Nat, (j : Int) = i + (ix'.lineCount - ix.lineCount) ∧
      (offset : Int) = l.offset + (text.length - n) ∧ ix'.lines[j]? = some { l with offset } := by
  obtain ⟨p, d, q, rfl, rfl, rfl, h'⟩ := h.exists_parts_of_replace hr
  obtain ⟨a, x, b, he, rfl, rfl⟩ := Holds.listed_iff h |>.mp hl
  have hsum : (p ++ d).length < Line.totalLength a := by simpa using hlt
  rw [← List.append_assoc] at he
  obtain ⟨a', he'⟩ := splitLines_after he (by simp) hsum (p ++ text.toList)
  have ht := totalLength_splitLines (p ++ d ++ q)
  have ht' := totalLength_splitLines (p ++ text.toList ++ q)
  have hc := h.lineCount_eq
  have hc' := h'.lineCount_eq
  rw [← List.append_assoc] at hc hc' h'
  simp only [he, he', Line.totalLength_append, List.length_append, List.length_cons]
    at ht ht' hc hc'
  have htext : text.toList.length = text.length := String.length_toList
  refine ⟨a'.length, Line.totalLength a', by omega, ?_, ?_⟩
  · simp
    omega
  · exact Holds.listed_iff h' |>.mpr ⟨a', x, b, he', rfl, rfl⟩

-- Whatever the history of the index that is edited.
theorem run_replace_local (text : Option String) (es : List LineEdit) (o n : Nat)
    (inserted : String) (ix' : LineIndex)
    (hr : ((start text).run es).replace o n inserted = .ok ix') :
    let ix := (start text).run es
    (∀ (i : Nat) (l : LineInfo),
      ix.lines[i]? = some l → l.offset + l.length < o → ix'.lines[i]? = some l) ∧
    ∀ (i : Nat) (l : LineInfo), ix.lines[i]? = some l → o + n < l.offset →
      ∃ j offset : Nat, (j : Int) = i + (ix'.lineCount - ix.lineCount) ∧
        (offset : Int) = l.offset + (inserted.length - n) ∧
        ix'.lines[j]? = some { l with offset } := by
  intro ix
  have h := tracks_run text es
  exact ⟨fun i l => h.replace_before hr, fun i l => h.replace_after hr⟩

-- A carriage return and a line feed with a character between them.
def parted : String :=
  "one\na\rb\ntwo\nend"

-- Without the character they are one newline, and one line less is left. The line before the joined
-- ones stays, and the line after them moves up.
theorem run_replace_local_parted :
    ((start parted).run []).replace 6 1 "" = .ok ((start parted).run [.replace 6 1 ""]) ∧
    ((start parted).run [.replace 6 1 ""]).lines[0]? = some ⟨0, 4, some .lf⟩ ∧
    ((start parted).run [.replace 6 1 ""]).lines[2]? = some ⟨7, 4, some .lf⟩ := by
  have hr : ((start parted).run []).replace 6 1 "" =
      .ok ((start parted).run [.replace 6 1 ""]) := by
    decide +kernel
  have hcount : ((start parted).run []).lineCount = 5 := by decide +kernel
  have hcount' : ((start parted).run [.replace 6 1 ""]).lineCount = 4 := by decide +kernel
  have hfirst : ((start parted).run []).lines[0]? = some ⟨0, 4, some .lf⟩ := by decide +kernel
  have hlast : ((start parted).run []).lines[3]? = some ⟨8, 4, some .lf⟩ := by decide +kernel
  obtain ⟨hbefore, hafter⟩ := run_replace_local parted [] 6 1 "" _ hr
  obtain ⟨j, offset, hj, ho, hl⟩ := hafter 3 _ hlast (by decide)
  obtain rfl : j = 2 := by
    rw [hcount, hcount'] at hj
    omega
  obtain rfl : offset = 7 := by
    simp at ho
    omega
  exact ⟨hr, hbefore 0 _ hfirst (by decide), hl⟩

end Caret.LineIndex
