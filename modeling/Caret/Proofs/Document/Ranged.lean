import Caret.Proofs.Document.Positions

-- Changes by ranges and edits by offsets. A client turns offsets into positions on its snapshot,
-- and the document turns them back on its own text; a batch of such changes is the sequence of the
-- edits.
namespace Caret

-- An edit by offset. What it asks for beyond the end of the text is left out.
structure OffsetEdit where
  offset : Nat
  length : Nat
  text   : String
deriving DecidableEq

namespace Document

def edit (d : Document) (e : OffsetEdit) : Document × Option LineError :=
  d.replace e.offset (min e.length (d.snapshot.length - e.offset)) e.text

-- Makes edits until one is rejected.
def editAll (d : Document) : List OffsetEdit → Document × Option LineError
  | []      => (d, none)
  | e :: es =>
    match d.edit e with
    | (d, none)     => d.editAll es
    | (d, some err) => (d, some err)

-- Every edit begins in the text that it finds, and the offsets of that text can be addressed.
def Admits (d : Document) : List OffsetEdit → Prop
  | []      => True
  | e :: es =>
    e.offset ≤ d.snapshot.length ∧ d.snapshot.length ≤ maxOffset ∧ (d.edit e).fst.Admits es

-- Adds edits as changes to those that have been sent in a batch. The range of each is taken from
-- the snapshot of the document that the changes before it leave.
def rangedFrom (d : Document) (version : Int32) (sent : List Change) :
    List OffsetEdit → Except LineError (List Change)
  | []      => .ok sent
  | e :: es => do
    let range ← (d.apply version sent).fst.snapshot.rangeOf e.offset e.length
    d.rangedFrom version (sent ++ [⟨some range, e.text⟩]) es

end Document

namespace Content

variable {c c' : Content} {journal journal' : List Undo} {xs ys : List Change}

-- A batch goes on from where its first part has stopped.
theorem batch_append (h : c.batch journal xs = (c', journal', none)) :
    c.batch journal (xs ++ ys) = c'.batch journal' ys := by
  induction xs generalizing c journal
  case nil =>
    cases h
    rfl
  case cons x xs hi =>
    rw [List.cons_append, batch]
    rw [batch] at h
    cases hx : c.change x
    case error e => simp [hx] at h
    case ok r =>
      rw [hx] at h
      exact hi h

end Content

namespace Document

variable {d : Document} {c : Content} {cs : List Char} {version : Int32} {o n : Nat}
  {range : TextRange}

theorem apply_of_batch {journal : List Content.Undo} {xs : List Change} (hv : d.version < version)
    (h : d.content.batch [] xs = (c, journal, none)) :
    d.apply version xs = ({ d with content := c, version }, none) := by
  rw [apply, if_neg (Int32.not_le.mpr hv), Content.changeAll_eq, h]

-- The ends of a range lead back to the offsets that it was made from.
theorem change_rangeOf (h : d.content.Tracks cs) (hm : d.snapshot.length ≤ maxOffset)
    (hr : d.snapshot.rangeOf o n = .ok range) (text : String) :
    d.content.change ⟨some range, text⟩ =
      (d.content.replace o (min n (d.snapshot.length - o)) text).mapError .line := by
  have hs : d.snapshot.lines.Tracks cs := h.lines
  have ho := (Snapshot.rangeOf_ok_iff hs).mp ⟨range, hr⟩
  have ⟨hstart, hstop⟩ := Snapshot.ends_of_rangeOf hr
  replace hstart : d.content.lines.offsetOf range.start = .ok o :=
    Snapshot.offsetAt_of_positionAt hs hm hstart
  replace hstop : d.content.lines.offsetOf range.stop = .ok (min (o + n) d.snapshot.length) :=
    Snapshot.offsetAt_of_positionAt hs hm hstop
  have hle : ¬min (o + n) d.snapshot.length < o := by omega
  have hlen : min (o + n) d.snapshot.length - o = min n (d.snapshot.length - o) := by omega
  simp only [Content.change, hstart, hstop, Except.mapError, bind, Except.bind, hle, if_false, hlen]

-- An edit that begins in the text is accepted.
theorem exists_replace (h : d.content.Tracks cs) (ho : o ≤ d.snapshot.length) (n : Nat)
    (text : String) :
    ∃ c' undo cs', d.content.replace o (min n (d.snapshot.length - o)) text = .ok (c', undo) ∧
      c'.Tracks cs' := by
  have hl : d.snapshot.length = cs.length := h.lines.length_eq
  have hle : o + min n (d.snapshot.length - o) ≤ cs.length := by omega
  have hs : spliceChars? cs o (min n (d.snapshot.length - o)) text.toList = some _ := if_pos hle
  have ⟨c', _, hc, ht, _⟩ := h.replace_some hs
  exact ⟨c', _, _, hc, ht⟩

-- One change more in a batch is one edit more.
theorem exists_change (h : d.content.Tracks cs) (ho : o ≤ d.snapshot.length)
    (hm : d.snapshot.length ≤ maxOffset) (n : Nat) (text : String) :
    ∃ range c' undo cs', d.snapshot.rangeOf o n = .ok range ∧
      d.content.change ⟨some range, text⟩ = .ok (c', undo) ∧
      d.edit ⟨o, n, text⟩ = ({ d with content := c' }, none) ∧ c'.Tracks cs' := by
  have ⟨range, hr⟩ := (Snapshot.rangeOf_ok_iff (n := n) h.lines).mpr ho
  have ⟨c', undo, cs', hc, ht⟩ := exists_replace h ho n text
  refine ⟨range, c', undo, cs', hr, ?_, ?_, ht⟩
  · rw [change_rangeOf h hm hr, hc]
    rfl
  · simp only [edit, replace, hc]

-- The changes that have been sent and the edits that they stand for lead to the same content, and
-- so do those that follow.
theorem exists_ranged {journal : List Content.Undo} {sent : List Change} {es : List OffsetEdit}
    (hv : d.version < version) (hb : d.content.batch [] sent = (c, journal, none))
    (h : c.Tracks cs) (ha : Admits { d with content := c } es) :
    ∃ xs c' journal', d.rangedFrom version sent es = .ok xs ∧
      d.content.batch [] xs = (c', journal', none) ∧
      editAll { d with content := c } es = ({ d with content := c' }, none) := by
  induction es generalizing c cs sent journal
  case nil => exact ⟨sent, c, journal, rfl, hb, rfl⟩
  case cons e es hi =>
    obtain ⟨ho, hm, ha⟩ := ha
    obtain ⟨range, c', undo, cs', hr, hx, he, ht⟩ := exists_change h ho hm e.length e.text
    have hb' : d.content.batch [] (sent ++ [⟨some range, e.text⟩]) =
        (c', undo :: journal, none) := by
      rw [Content.batch_append hb, Content.batch, hx]
      rfl
    rw [he] at ha
    obtain ⟨xs, c'', journal', hxs, hb'', hall⟩ := hi hb' ht ha
    refine ⟨xs, c'', journal', ?_, hb'', ?_⟩
    · have hr' : (d.apply version sent).fst.snapshot.rangeOf e.offset e.length = .ok range := by
        rw [apply_of_batch hv hb]
        exact hr
      rw [rangedFrom, hr']
      exact hxs
    · rw [editAll, he]
      exact hall

-- In any document that can be edited into being and whose offsets can be addressed, a change by the
-- range of an offset is the edit at the offset, and a batch of such changes is the sequence of the
-- edits.
theorem run_ranged (uri language : String) (version : Int32) (text : String)
    (calls : List DocumentCall) (version' : Int32)
    (hv : ((ofText uri language version text).run calls).version < version') :
    let d := (ofText uri language version text).run calls
    (∀ o n inserted, o ≤ d.snapshot.length → d.snapshot.length ≤ maxOffset →
      ∃ range d', d.snapshot.rangeOf o n = .ok range ∧
        d.replace o (min n (d.snapshot.length - o)) inserted = (d', none) ∧
        d.apply version' [⟨some range, inserted⟩] = ({ d' with version := version' }, none)) ∧
    ∀ es, d.Admits es → ∃ changes d', d.rangedFrom version' [] es = .ok changes ∧
      d.editAll es = (d', none) ∧
      d.apply version' changes = ({ d' with version := version' }, none) := by
  intro d
  have h := (refines_ofText uri language version text).run calls
  constructor
  case left =>
    intro o n inserted ho hm
    obtain ⟨range, c', undo, _, hrange, hx, he, _⟩ := exists_change h.content ho hm n inserted
    have hb : d.content.batch [] [⟨some range, inserted⟩] = (c', [undo], none) := by
      rw [Content.batch, hx]
      rfl
    exact ⟨range, _, hrange, he, apply_of_batch hv hb⟩
  case right =>
    intro es ha
    have hb : d.content.batch [] [] = (d.content, [], none) := rfl
    obtain ⟨changes, c', _, hc, hb', he⟩ := exists_ranged hv hb h.content ha
    exact ⟨changes, _, hc, he, apply_of_batch hv hb'⟩

-- An insertion inside a newline, and a replacement that asks for more than the text has.
def breakingEdits : List OffsetEdit := [
  ⟨2, 0, "x"⟩,
  ⟨4, 9, "\n"⟩
]

theorem run_ranged_breaking :
    ((ofText "" "" 1 "a\r\nb").run []).version < 2 ∧
    ((ofText "" "" 1 "a\r\nb").run []).Admits breakingEdits ∧
    ∃ changes, ((ofText "" "" 1 "a\r\nb").run []).rangedFrom 2 [] breakingEdits = .ok changes ∧
      (((ofText "" "" 1 "a\r\nb").run []).apply 2 changes).snd = none ∧
      (((ofText "" "" 1 "a\r\nb").run []).apply 2 changes).fst.text = "a\rx\n\n" := by
  have hv : ((ofText "" "" 1 "a\r\nb").run []).version < 2 := by decide
  have ha : ((ofText "" "" 1 "a\r\nb").run []).Admits breakingEdits :=
    ⟨by decide +kernel, by decide +kernel, by decide +kernel, by decide +kernel, trivial⟩
  have ht : (((ofText "" "" 1 "a\r\nb").run []).editAll breakingEdits).fst.text = "a\rx\n\n" := by
    decide +kernel
  obtain ⟨changes, d', hc, he, happly⟩ :=
    (run_ranged "" "" 1 "a\r\nb" [] 2 hv).right breakingEdits ha
  refine ⟨hv, ha, changes, hc, by rw [happly], ?_⟩
  rw [he] at ht
  rw [happly]
  exact ht

end Document
end Caret
