import Caret.Proofs.Line.Replace

-- Histories of an index. Beside the index the characters of its text are kept, on which every edit
-- is made naively; whatever the history, the index is the one of these characters.
namespace Caret

-- Characters with `length` of them from an offset on replaced, if there are so many.
def spliceChars? (cs : List Char) (offset length : Nat) (text : List Char) : Option (List Char) :=
  if offset + length ≤ cs.length
  then some (cs.take offset ++ text ++ cs.drop (offset + length))
  else none

section

variable {cs cs' text : List Char} {offset length : Nat}

theorem spliceChars?_eq_none :
    spliceChars? cs offset length text = none ↔ ¬offset + length ≤ cs.length := by
  simp [spliceChars?]

-- The characters before, in and after the part that is replaced.
theorem spliceChars?_eq_some :
    spliceChars? cs offset length text = some cs' ↔
      ∃ p d q, cs = p ++ (d ++ q) ∧ offset = p.length ∧ length = d.length ∧
        cs' = p ++ (text ++ q) := by
  constructor
  case mp =>
    intro h
    unfold spliceChars? at h
    split at h
    case isTrue ho =>
      refine ⟨cs.take offset, (cs.drop offset).take length, cs.drop (offset + length),
        ?_, ?_, ?_, ?_⟩
      · rw [← List.drop_drop, List.take_append_drop, List.take_append_drop]
      · simp
        omega
      · simp
        omega
      · simpa using h.symm
    case isFalse => contradiction
  case mpr =>
    rintro ⟨p, d, q, rfl, rfl, rfl, rfl⟩
    simp [spliceChars?]

end

-- A call that edits an index.
inductive LineEdit
  | setText (text : String)
  | replace (offset length : Nat) (text : String)

namespace LineEdit

-- The index after the edit, and the error of an edit that is rejected.
def apply (ix : LineIndex) : LineEdit → LineIndex × Option LineError
  | setText text               => (.ofText text, none)
  | replace offset length text =>
    match ix.replace offset length text with
    | .ok ix   => (ix, none)
    | .error e => (ix, some e)

-- The characters after the edit.
def splice (cs : List Char) : LineEdit → List Char
  | setText text               => text.toList
  | replace offset length text => (spliceChars? cs offset length text.toList).getD cs

end LineEdit

namespace LineIndex

-- The index that a history starts from.
def start : Option String → LineIndex
  | none      => .empty
  | some text => .ofText text

-- The index after some edits.
def run (ix : LineIndex) (es : List LineEdit) : LineIndex :=
  es.foldl (fun ix e => (e.apply ix).fst) ix

-- The characters after some edits.
def spliceAll (cs : List Char) (es : List LineEdit) : List Char :=
  es.foldl LineEdit.splice cs

variable {ix : LineIndex} {cs : List Char}

theorem Tracks.lines_eq (h : ix.Tracks cs) : ix.lines = Line.withOffsets 0 (splitLines cs) := by
  rw [lines, Holds.lines h]

theorem Tracks.lineCount_eq (h : ix.Tracks cs) : ix.lineCount = (splitLines cs).length :=
  Holds.lineCount_eq h

theorem tracks_ofList (cs : List Char) : (ofText (.ofList cs)).Tracks cs := by
  simpa using tracks_ofText (.ofList cs)

theorem Tracks.replace_some {cs' : List Char} {offset length : Nat} {text : String}
    (h : ix.Tracks cs)
    (hs : spliceChars? cs offset length text.toList = some cs') :
    ∃ ix', ix.replace offset length text = .ok ix' ∧ ix'.Tracks cs' := by
  have ⟨p, d, q, hc, ho, hl, hc'⟩ := spliceChars?_eq_some.mp hs
  subst hc ho hl hc'
  exact h.replace_eq text

theorem Tracks.replace_none {offset length : Nat} {text : String} (h : ix.Tracks cs)
    (hs : spliceChars? cs offset length text.toList = none) :
    ∃ e, ix.replace offset length text = .error e := by
  have ho : ¬offset + length ≤ ix.length := by
    rw [h.length_eq]
    exact spliceChars?_eq_none.mp hs
  exact ⟨_, by rw [replace, replaceM, if_neg ho]; rfl⟩

theorem Tracks.replace_ok_iff (h : ix.Tracks cs) (offset length : Nat) (text : String) :
    (∃ ix', ix.replace offset length text = .ok ix') ↔ offset + length ≤ cs.length := by
  cases hs : spliceChars? cs offset length text.toList
  case none =>
    have ⟨e, he⟩ := h.replace_none hs
    simpa [he] using spliceChars?_eq_none.mp hs
  case some cs' =>
    have ⟨ix', hr, _⟩ := h.replace_some hs
    have ho : offset + length ≤ cs.length := by
      refine Decidable.byContradiction fun ho => ?_
      simp [spliceChars?_eq_none.mpr ho] at hs
    simp [hr, ho]

-- One edit keeps index and characters in step.
theorem Tracks.apply (h : ix.Tracks cs) (e : LineEdit) : (e.apply ix).fst.Tracks (e.splice cs) := by
  cases e
  case setText text => exact tracks_ofText text
  case replace offset length text =>
    cases hs : spliceChars? cs offset length text.toList
    case none =>
      have ⟨_, hr⟩ := h.replace_none hs
      simpa [LineEdit.apply, LineEdit.splice, hr, hs] using h
    case some cs' =>
      have ⟨_, hr, ht⟩ := h.replace_some hs
      simpa [LineEdit.apply, LineEdit.splice, hr, hs] using ht

theorem Tracks.run (h : ix.Tracks cs) (es : List LineEdit) :
    (ix.run es).Tracks (spliceAll cs es) := by
  induction es generalizing ix cs
  case nil => exact h
  case cons e es hi => exact hi (h.apply e)

theorem tracks_start (text : Option String) : (start text).Tracks (text.getD "").toList := by
  cases text
  case none => exact tracks_empty
  case some text => exact tracks_ofText text

theorem tracks_run (text : Option String) (es : List LineEdit) :
    ((start text).run es).Tracks (spliceAll (text.getD "").toList es) :=
  (tracks_start text).run es

-- An edit that is rejected changes nothing.
theorem apply_eq_of_rejected {e : LineEdit} {err : LineError} (h : (e.apply ix).snd = some err) :
    (e.apply ix).fst = ix := by
  cases e <;> simp only [LineEdit.apply] at *
  case setText => simp at h
  case replace => split at h <;> simp_all

-- Since `es` is any list of edits, this holds after every step of a history.
theorem run_incremental (text : Option String) (es : List LineEdit) :
    let ix := (start text).run es
    let cs := spliceAll (text.getD "").toList es
    ix.lines = Line.withOffsets 0 (splitLines cs) ∧
    ix.lineCount = (ofText (.ofList cs)).lineCount ∧
    ix.length = (ofText (.ofList cs)).length ∧
    (∀ offset length text,
      (∃ ix', ix.replace offset length text = .ok ix') ↔ offset + length ≤ cs.length) ∧
    (∀ e err, (LineEdit.apply ix e).snd = some err → (LineEdit.apply ix e).fst = ix) := by
  intro ix cs
  have h : ix.Tracks cs := tracks_run text es
  have h' := tracks_ofList cs
  refine ⟨h.lines_eq, ?_, ?_, h.replace_ok_iff, fun e err => apply_eq_of_rejected⟩
  · rw [h.lineCount_eq, h'.lineCount_eq]
  · rw [h.length_eq, h'.length_eq]

end LineIndex
end Caret
