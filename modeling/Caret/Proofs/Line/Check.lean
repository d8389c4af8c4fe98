import Caret.Line.Check
import Caret.Proofs.Line.Run

-- The check of an index is exact: it passes just if the links, counters and balances of the tree
-- are right, the last line alone has no newline, and there are as many slots as lines and free
-- slots. It passes whatever the history of the index.
namespace Caret

theorem bind_eq_ok {ε α β : Type} {m : Except ε α} {f : α → Except ε β} {y : β} :
    (m >>= f) = .ok y ↔ ∃ x, m = .ok x ∧ f x = .ok y := by
  cases m <;> simp [bind, Except.bind]

namespace LineTree

-- The root, if there is one, is linked to `up`.
def Under (up : Option Nat) : LineTree → Prop
  | nil                     => True
  | node parent _ _ _ _ _ _ => parent = up

-- What a tree holds.
def extent (t : LineTree) : Extent :=
  ⟨t.height, Cell.totalLength t.cells, t.cells.length⟩

variable {t : LineTree} {up : Option Nat} {slot : Nat}

theorem Valid.under (v : t.Valid up) : t.Under up := by
  cases t
  case nil  => trivial
  case node => exact v.left

theorem checkLink_eq_ok : t.checkLink slot = .ok () ↔ t.Under slot := by
  cases t <;> simp [checkLink, Under]

theorem Valid.measure_eq (v : t.Valid up) : t.measure = .ok t.extent := by
  induction t generalizing up
  case nil => rfl
  case node parent l c n x b r hil hir =>
    have ⟨_, vl, vr, hc, hn, hb⟩ := v
    have hll := checkLink_eq_ok.mpr vl.under
    have hlr := checkLink_eq_ok.mpr vr.under
    have hb' : ¬b.toInt ≠ (r.height : Int) - l.height := by omega
    simp only [measure, hll, hlr, hil vl, hir vr, bind, Except.bind, extent]
    rw [if_neg hb', if_neg (by omega), if_neg (by omega)]
    simp [height, cells]
    omega

-- A tree that passes is valid below the node that its root is linked to.
theorem valid_of_measure {e : Extent} (hu : t.Under up) (h : t.measure = .ok e) :
    t.Valid up ∧ e = t.extent := by
  induction t generalizing up e
  case nil => exact ⟨trivial, (Except.ok.inj h).symm⟩
  case node parent l c n x b r hil hir =>
    simp only [measure, bind_eq_ok] at h
    have ⟨_, hll, left, hl, _, hlr, right, hr, h⟩ := h
    have ⟨vl, hel⟩ := hil (checkLink_eq_ok.mp hll) hl
    have ⟨vr, her⟩ := hir (checkLink_eq_ok.mp hlr) hr
    subst hel her
    split at h <;> try contradiction
    split at h <;> try contradiction
    split at h <;> try contradiction
    case isFalse.isFalse.isFalse hb hc hn =>
      simp only [extent, Decidable.not_not] at hb hc hn
      refine ⟨⟨hu, vl, vr, hc, hn, by omega⟩, ?_⟩
      rw [← Except.ok.inj h]
      simp [extent, height, cells]
      omega

end LineTree

-- Every line has a newline but the last.
structure Line.Ends (ls : List Line) (closed : List Line) (last : Line) : Prop where
  eq     : ls = closed ++ [last]
  closed : ∀ l ∈ closed, l.Closed
  last   : last.newline = none

namespace Cell

variable {cs : List Cell}

-- The last line has no newline, so there is none if all lines have one.
theorem eq_nil_of_checkEnds (h : checkEnds cs = .ok ()) (hn : undelimited cs = 0) : cs = [] := by
  induction cs
  case nil => rfl
  case cons c cs hi =>
    cases hc : c.line.newline
    case none => simp [undelimited, hc] at hn
    case some newline =>
      simp only [checkEnds, hc] at h
      split at h <;> try contradiction
      split at h <;> try contradiction
      case isFalse hne => exact absurd (hi h (by simpa [undelimited, hc] using hn)) hne

theorem exists_ends (h : checkEnds cs = .ok ()) (hn : undelimited cs = 1) :
    ∃ closed last, Line.Ends (cs.map Cell.line) closed last := by
  induction cs
  case nil => simp [undelimited] at hn
  case cons c cs hi =>
    cases hc : c.line.newline
    case none =>
      have hn' : undelimited cs = 0 := by simpa [undelimited, hc] using hn
      simp only [checkEnds, hc] at h
      have hcs := eq_nil_of_checkEnds h hn'
      exact ⟨[], c.line, by simp [hcs], by simp, hc⟩
    case some newline =>
      simp only [checkEnds, hc] at h
      split at h <;> try contradiction
      split at h <;> try contradiction
      case isFalse.isFalse hl _ =>
        have ⟨closed, last, he⟩ := hi h (by simpa [undelimited, hc] using hn)
        have hcl : c.line.Closed := ⟨by simp [hc], fun nl hnl => by
          obtain rfl : newline = nl := by simpa [hc] using hnl
          exact Nat.le_of_not_lt hl⟩
        exact ⟨c.line :: closed, last, by simp [he.eq], by simpa using ⟨hcl, he.closed⟩, he.last⟩

theorem checkEnds_of_ends {closed : List Line} {last : Line}
    (h : Line.Ends (cs.map Cell.line) closed last) :
    checkEnds cs = .ok () ∧ undelimited cs = 1 := by
  induction cs generalizing closed
  case nil => exact absurd h.eq (by simp)
  case cons c cs hi =>
    cases closed
    case nil =>
      obtain ⟨rfl, rfl⟩ : c.line = last ∧ cs = [] := by simpa using h.eq
      simp [checkEnds, undelimited, h.last]
    case cons l closed =>
      obtain ⟨rfl, he⟩ : c.line = l ∧ cs.map Cell.line = closed ++ [last] := by simpa using h.eq
      have hcl := h.closed c.line (by simp)
      have ⟨newline, hnl⟩ := Option.isSome_iff_exists.mp hcl.isSome
      have hlen : ¬c.length < newline.length := Nat.not_lt.mpr (hcl.length_le newline hnl)
      have hne : cs ≠ [] := by
        rintro rfl
        simp at he
      have ⟨hc, hn⟩ := hi ⟨he, fun l hl => h.closed l (by simp [hl]), h.last⟩
      simp only [checkEnds, hnl, hlen, hne, if_false]
      exact ⟨hc, by simpa [undelimited, hnl] using hn⟩

end Cell

namespace LineIndex

variable {ix : LineIndex} {cs : List Char}

theorem checkFrom_eq_ok {root : Nat} (hu : ix.tree.Under none) :
    ix.checkFrom root = .ok () ↔
      ix.tree.Valid none ∧ (∃ closed last, Line.Ends ix.tree.toList closed last) ∧
        ix.tree.cells.length + ix.slots.free.length = ix.slots.size := by
  constructor
  case mp =>
    intro h
    simp only [checkFrom, bind_eq_ok] at h
    have ⟨_, hm, _, he, h⟩ := h
    split at h <;> try contradiction
    split at h <;> try contradiction
    case isFalse.isFalse hn hs =>
      have ⟨v, _⟩ := LineTree.valid_of_measure hu hm
      exact ⟨v, Cell.exists_ends he (Decidable.not_not.mp hn), Decidable.not_not.mp hs⟩
  case mpr =>
    rintro ⟨v, ⟨closed, last, he⟩, hs⟩
    have ⟨hc, hn⟩ := Cell.checkEnds_of_ends he
    simp [checkFrom, v.measure_eq, hc, hn, hs, bind, Except.bind]

theorem check_eq_ok :
    ix.check = .ok () ↔
      ix.tree.Valid none ∧ (∃ closed last, Line.Ends ix.tree.toList closed last) ∧
        ix.tree.cells.length + ix.slots.free.length = ix.slots.size := by
  have ⟨t, slots⟩ := ix
  cases t
  case nil =>
    simp only [check, reduceCtorEq, false_iff]
    rintro ⟨_, ⟨closed, last, he⟩, _⟩
    exact absurd he.eq (by simp [LineTree.toList, LineTree.cells])
  case node parent l c n x b r =>
    cases parent
    case none      => exact checkFrom_eq_ok rfl
    case some slot =>
      simp only [check, Option.isSome_some, if_true, reduceCtorEq, false_iff]
      rintro ⟨⟨hp, _⟩, _⟩
      contradiction

-- What an index promises of its nodes. The check compares only the number of the slots.
structure WellFormed (ix : LineIndex) : Prop where
  tree  : ix.tree.Valid none
  ends  : ∃ closed last, Line.Ends ix.tree.toList closed last
  slots : ix.slots.Accounts (ix.tree.cells.map Cell.slot)

theorem WellFormed.check_eq (w : ix.WellFormed) : ix.check = .ok () := by
  have hs := w.slots.length_eq
  simp at hs
  exact check_eq_ok.mpr ⟨w.tree, w.ends, hs⟩

theorem Tracks.wellFormed (h : ix.Tracks cs) : ix.WellFormed where
  tree  := h.valid
  ends  := by
    have ⟨a, n, ha, hc⟩ := exists_splitLines cs
    exact ⟨a, ⟨n, none⟩, h.lines.trans ha, hc, rfl⟩
  slots := h.slots

theorem wellFormed_run (text : Option String) (es : List LineEdit) :
    let ix := (start text).run es
    ix.check = .ok () ∧ ix.WellFormed ∧ ix.slots.free.Nodup ∧
      ∀ slot ∈ ix.slots.free, ∀ c ∈ ix.tree.cells, c.slot ≠ slot := by
  intro ix
  have w : ix.WellFormed := (tracks_run text es).wellFormed
  have ⟨_, hf, hd⟩ := List.nodup_append.mp w.slots.nodup
  exact ⟨w.check_eq, w, hf, fun slot hs c hc => hd c.slot (List.mem_map_of_mem hc) slot hs⟩

end LineIndex
end Caret
