import Caret.Proofs.Document.Journal

-- Histories of a document. Whatever calls are made, the document is the plain one with an index; a
-- batch that fails leaves no trace, and every accepted batch is newer than those before.
namespace Caret

-- A call that edits a document.
inductive DocumentCall
  | setText (text : String)
  | replace (offset length : Nat) (text : String)
  | apply (version : Int32) (changes : List Change)

namespace PlainDocument

def after (p : PlainDocument) : DocumentCall → PlainDocument
  | .setText text               => p.setText text
  | .replace offset length text => p.replace offset length text
  | .apply version changes      => p.apply version changes

def run (p : PlainDocument) (calls : List DocumentCall) : PlainDocument :=
  calls.foldl after p

end PlainDocument

namespace Document

def after (d : Document) : DocumentCall → Document
  | .setText text               => d.setText text
  | .replace offset length text => (d.replace offset length text).fst
  | .apply version changes      => (d.apply version changes).fst

def run (d : Document) (calls : List DocumentCall) : Document :=
  calls.foldl after d

-- The versions of the batches that are accepted, in their order.
def acceptedVersions (d : Document) : List DocumentCall → List Int32
  | []                                => []
  | .apply version changes :: calls =>
    let (d', error) := d.apply version changes
    if error.isNone then version :: d'.acceptedVersions calls else d'.acceptedVersions calls
  | call :: calls                     => (d.after call).acceptedVersions calls

-- The document is the plain one with an index.
structure Refines (d : Document) (p : PlainDocument) : Prop where
  version : d.version = p.version
  content : d.content.Tracks p.chars

variable {d : Document} {p : PlainDocument}

theorem refines_ofText (uri language : String) (version : Int32) (text : String) :
    (ofText uri language version text).Refines ⟨version, text.toList⟩ where
  version := rfl
  content := Content.tracks_ofText text

-- What becomes of a batch, beside the plain document.
inductive Outcome (d : Document) (p : PlainDocument) (version : Int32) (changes : List Change) :
    Document × Option ChangeError → Prop
  | stale {e : ChangeError} : version ≤ d.version → Outcome d p version changes (d, some e)
  | accepted {content : Content} {cs : List Char} :
    d.version < version → PlainDocument.changeAll? p.chars changes = some cs → content.Tracks cs →
    Outcome d p version changes ({ d with content, version }, none)
  | failed {content : Content} {e : ChangeError} :
    d.version < version → PlainDocument.changeAll? p.chars changes = none → content.Tracks p.chars →
    content.isAscii = d.content.isAscii → Outcome d p version changes ({ d with content }, some e)

theorem Refines.apply_outcome (h : d.Refines p) (version : Int32) (changes : List Change) :
    Outcome d p version changes (d.apply version changes) := by
  unfold apply
  split
  case isTrue hv => exact .stale hv
  case isFalse hv =>
    replace hv := Int32.not_le.mp hv
    have hs := h.content.batch_stops (Content.restores_nil _ _) changes
    rw [Content.changeAll_eq]
    generalize d.content.batch [] changes = r at hs ⊢
    rcases r with ⟨c, journal, _ | e⟩
    case none =>
      have ⟨cs, ht, _, hc⟩ := hs.exists_chars
      exact .accepted hv (hc rfl) ht
    case some =>
      have ⟨cs, ht, hr, _⟩ := hs.exists_chars
      have ⟨_, ht₀, hf₀⟩ := hr c ht rfl
      exact .failed hv (hs.failed rfl) ht₀ hf₀

theorem Refines.setText (h : d.Refines p) (text : String) :
    (d.setText text).Refines (p.setText text) where
  version := h.version
  content := Content.tracks_ofText text

theorem Refines.replace (h : d.Refines p) (offset length : Nat) (text : String) :
    (d.replace offset length text).fst.Refines (p.replace offset length text) := by
  cases hs : spliceChars? p.chars offset length text.toList
  case none =>
    have ⟨e, he⟩ := h.content.replace_none hs
    simpa [Document.replace, PlainDocument.replace, he, hs] using h
  case some cs =>
    have ⟨c, _, hc, ht, _⟩ := h.content.replace_some hs
    simp only [Document.replace, PlainDocument.replace, hc, hs]
    exact ⟨h.version, ht⟩

theorem Refines.apply (h : d.Refines p) (version : Int32) (changes : List Change) :
    (d.apply version changes).fst.Refines (p.apply version changes) := by
  have ho := h.apply_outcome version changes
  have hv := h.version
  generalize d.apply version changes = r at ho
  unfold PlainDocument.apply
  cases ho
  case stale hle => rwa [if_pos (hv ▸ hle)]
  case accepted hlt hc ht =>
    rw [if_neg (by simpa [hv] using hlt), hc]
    exact ⟨rfl, ht⟩
  case failed hlt hc ht _ =>
    rw [if_neg (by simpa [hv] using hlt), hc]
    exact ⟨hv, ht⟩

theorem Refines.after (h : d.Refines p) (call : DocumentCall) :
    (d.after call).Refines (p.after call) := by
  cases call
  case setText text => exact h.setText text
  case replace offset length text => exact h.replace offset length text
  case apply version changes => exact h.apply version changes

theorem Refines.run (h : d.Refines p) (calls : List DocumentCall) :
    (d.run calls).Refines (p.run calls) := by
  induction calls generalizing d p
  case nil => exact h
  case cons call calls hi => exact hi (h.after call)

-- A replacement never changes the version, and it is accepted just in the bounds of the text.
theorem replace_version (d : Document) (offset length : Nat) (text : String) :
    (d.replace offset length text).fst.version = d.version := by
  unfold Document.replace
  split <;> rfl

theorem Refines.replace_accepted_iff (h : d.Refines p) (offset length : Nat) (text : String) :
    (d.replace offset length text).snd = none ↔ offset + length ≤ p.chars.length := by
  cases hs : spliceChars? p.chars offset length text.toList
  case none =>
    have ⟨e, he⟩ := h.content.replace_none hs
    simpa [Document.replace, he] using spliceChars?_eq_none.mp hs
  case some cs =>
    have ⟨c, _, hc, _, _⟩ := h.content.replace_some hs
    have ho : offset + length ≤ p.chars.length := by
      by_contra ho
      simp [spliceChars?_eq_none.mpr ho] at hs
    simp [Document.replace, hc, ho]

theorem Refines.apply_accepted_iff (h : d.Refines p) (version : Int32) (changes : List Change) :
    (d.apply version changes).snd = none ↔
      p.version < version ∧ (PlainDocument.changeAll? p.chars changes).isSome := by
  have ho := h.apply_outcome version changes
  have hv := h.version
  generalize d.apply version changes = r at ho
  cases ho
  case stale hle => simp [← hv, Int32.not_lt.mpr hle]
  case accepted hlt hc _ => simp [← hv, hlt, hc]
  case failed hc _ _ => simp [hc]

-- An accepted batch is newer than the document, which takes over its version.
theorem Refines.version_of_accepted {version : Int32} {changes : List Change} (h : d.Refines p)
    (ha : (d.apply version changes).snd = none) :
    d.version < version ∧ (d.apply version changes).fst.version = version := by
  have ho := h.apply_outcome version changes
  generalize d.apply version changes = r at ho ha
  cases ho <;> simp at ha
  case accepted hlt _ _ => exact ⟨hlt, rfl⟩

theorem Refines.version_of_rejected {version : Int32} {changes : List Change} {e : ChangeError}
    (h : d.Refines p) (ha : (d.apply version changes).snd = some e) :
    (d.apply version changes).fst.version = d.version := by
  have ho := h.apply_outcome version changes
  generalize d.apply version changes = r at ho ha
  cases ho <;> simp at ha
  all_goals rfl

-- The version of the document is a lower bound of those that are accepted later on.
theorem Refines.acceptedVersions_pairwise (h : d.Refines p) (calls : List DocumentCall) :
    (d.version :: d.acceptedVersions calls).Pairwise (· < ·) := by
  induction calls generalizing d p
  case nil => simp [acceptedVersions]
  case cons call calls hi =>
    have hi' := hi (h.after call)
    cases call
    case setText text => exact hi'
    case replace offset length text => rwa [Document.after, replace_version] at hi'
    case apply version changes =>
      simp only [Document.after] at hi'
      cases ha : (d.apply version changes).snd
      case none =>
        have ⟨hlt, hv⟩ := h.version_of_accepted ha
        rw [hv] at hi'
        simp only [acceptedVersions, ha, Option.isNone_none, if_true, List.pairwise_cons] at hi' ⊢
        refine ⟨fun v hm => ?_, hi'⟩
        rcases List.mem_cons.mp hm with rfl | hm
        · exact hlt
        · exact Int32.lt_trans hlt (hi'.left v hm)
      case some e =>
        rw [h.version_of_rejected ha] at hi'
        simpa [acceptedVersions, ha] using hi'

-- Since `calls` is any list of calls, this holds after every call of a history.
theorem run_refines_plain (uri language : String) (version : Int32) (text : String)
    (calls : List DocumentCall) :
    let d := (ofText uri language version text).run calls
    let p := PlainDocument.run ⟨version, text.toList⟩ calls
    d.text.toList = p.chars ∧
    d.lines.lines = Line.withOffsets 0 (splitLines p.chars) ∧
    d.version = p.version ∧
    (∀ offset length text,
      (d.replace offset length text).snd = none ↔ offset + length ≤ p.chars.length) ∧
    (∀ version changes, (d.apply version changes).snd = none ↔
      p.version < version ∧ (PlainDocument.changeAll? p.chars changes).isSome) ∧
    (version :: (ofText uri language version text).acceptedVersions calls).Pairwise (· < ·) ∧
    (∀ text, (d.setText text).version = d.version) ∧
    (∀ offset length text, (d.replace offset length text).fst.version = d.version) := by
  intro d p
  have h₀ := refines_ofText uri language version text
  have h : d.Refines p := h₀.run calls
  exact ⟨h.content.text, h.content.lines.lines_eq, h.version, h.replace_accepted_iff,
    h.apply_accepted_iff, h₀.acceptedVersions_pairwise calls, fun _ => rfl, d.replace_version⟩

theorem Refines.rollback {version : Int32} {changes : List Change} {e : ChangeError}
    (h : d.Refines p) (he : (d.apply version changes).snd = some e) :
    let d' := (d.apply version changes).fst
    d'.version = d.version ∧ d'.text = d.text ∧ d'.lines.lines = d.lines.lines ∧
      d'.content.isAscii = d.content.isAscii := by
  have ho := h.apply_outcome version changes
  generalize d.apply version changes = r at ho he
  cases ho <;> simp at he
  case stale => exact ⟨rfl, rfl, rfl, rfl⟩
  case failed content _ _ _ ht hf =>
    refine ⟨rfl, ?_, ?_, hf⟩
    · exact String.toList_inj.mp (ht.text.trans h.content.text.symm)
    · exact ht.lines.lines_eq.trans h.content.lines.lines_eq.symm

-- A batch that is not stale fails by playing its journal from where it has stopped.
theorem content_of_failed {version : Int32} {changes : List Change} {e : ChangeError}
    (hv : d.version < version) (he : (d.apply version changes).snd = some e) :
    let (stopped, journal, _) := d.content.batch [] changes
    (d.apply version changes).fst.content = journal.foldl Content.undo stopped := by
  simp only [Document.apply, if_neg (Int32.not_le.mpr hv), Content.changeAll_eq] at he ⊢
  generalize d.content.batch [] changes = r at he ⊢
  rcases r with ⟨c, journal, _ | e⟩
  case none => simp at he
  case some => rfl

-- No entry of the journal of a batch is rejected when it is played.
theorem Refines.plays (h : d.Refines p) (changes : List Change) :
    let (stopped, journal, _) := d.content.batch [] changes
    stopped.Plays journal := by
  have hs := h.content.batch_stops (Content.restores_nil _ _) changes
  have ⟨cs, ht, hr, _⟩ := hs.exists_chars
  exact (hr _ ht rfl).left

-- A batch that fails anywhere leaves the document as it was: the journal is played from where the
-- batch has stopped, and none of its entries is rejected.
theorem apply_rollback (uri language : String) (version : Int32) (text : String)
    (calls : List DocumentCall) (version' : Int32) (changes : List Change) (e : ChangeError)
    (he : (((ofText uri language version text).run calls).apply version' changes).snd = some e) :
    let d := (ofText uri language version text).run calls
    let d' := (d.apply version' changes).fst
    let (stopped, journal, _) := d.content.batch [] changes
    d'.version = d.version ∧ d'.text = d.text ∧ d'.lines.lines = d.lines.lines ∧
      d'.content.isAscii = d.content.isAscii ∧
      (d.version < version' → d'.content = journal.foldl Content.undo stopped) ∧
      stopped.Plays journal := by
  intro d d'
  have h := (refines_ofText uri language version text).run calls
  have ⟨hv, ht, hl, ha⟩ := h.rollback he
  exact ⟨hv, ht, hl, ha, fun hlt => content_of_failed hlt he, h.plays changes⟩

-- An edit that joins two lines, a new text, another edit and a change of a line that is not there.
def mixedBatch : List Change := [
  ⟨some ⟨⟨0, 2⟩, ⟨1, 1⟩⟩, "\r"⟩,
  ⟨none, "plain"⟩,
  ⟨some ⟨⟨0, 5⟩, ⟨0, 5⟩⟩, "\nmore"⟩,
  ⟨some ⟨⟨4, 0⟩, ⟨4, 0⟩⟩, "x"⟩
]

theorem apply_rollback_mixed :
    ((ofText "" "" 1 "grüße\nwelt").apply 2 mixedBatch).snd = some (.line (.lineOutOfBounds 4 2)) ∧
    ((ofText "" "" 1 "grüße\nwelt").apply 2 mixedBatch).fst.version = 1 ∧
    ((ofText "" "" 1 "grüße\nwelt").apply 2 mixedBatch).fst.text = "grüße\nwelt" ∧
    ((ofText "" "" 1 "grüße\nwelt").apply 2 mixedBatch).fst.content.isAscii = false := by
  have he : ((ofText "" "" 1 "grüße\nwelt").apply 2 mixedBatch).snd =
      some (.line (.lineOutOfBounds 4 2)) := by decide +kernel
  obtain ⟨hv, ht, _, ha, _⟩ := apply_rollback "" "" 1 "grüße\nwelt" [] 2 mixedBatch _ he
  exact ⟨he, hv, ht, ha⟩

end Document
end Caret
