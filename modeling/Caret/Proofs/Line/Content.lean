import Caret.Proofs.Line.Balance
import Mathlib.Algebra.Ring.Nat
import Mathlib.Data.List.Basic

-- The lines that an index holds. Looking up a line by number or by offset is looking it up in the
-- list of the lines, and the changes that an edit is made of are changes of that list. Every slot
-- is either that of one line or free, and no slot is lost.
namespace Caret

namespace Line

-- The line `x` after the lines `before` and before the lines `after` is the one that an offset
-- falls into.
structure Covers (before : List Line) (x : Line) (after : List Line) (offset : Nat) : Prop where
  start : totalLength before ≤ offset
  stop  : offset < totalLength before + x.length ∨
    offset = totalLength before + x.length ∧ after = []

theorem EndOpen.append {ls : List Line} (h : EndOpen ls) (before : List Line) :
    EndOpen (before ++ ls) := by
  unfold EndOpen at *
  simp [List.getLast?_append, h]

theorem EndOpen.of_append {ls : List Line} (before : List Line) (h : EndOpen (before ++ ls))
    (hne : ls ≠ []) : EndOpen ls := by
  unfold EndOpen at *
  rw [List.map_append, List.getLast?_append_of_ne_nil _ (by simpa using hne)] at h
  exact h

theorem exists_covers {ls : List Line} {offset : Nat} (hn : ls ≠ [])
    (ho : offset ≤ totalLength ls) : ∃ a x b, ls = a ++ x :: b ∧ Covers a x b offset := by
  induction ls generalizing offset
  case nil => contradiction
  case cons l ls hi =>
    by_cases hl : offset < l.length ∨ offset = l.length ∧ ls = []
    case pos => exact ⟨[], l, ls, rfl, by simp, by simpa using hl⟩
    case neg =>
      have hs : ls ≠ [] := by
        rintro rfl
        simp at ho hl
        omega
      have hr : offset - l.length ≤ totalLength ls := by simp at ho; omega
      have ⟨a, x, b, he, hc⟩ := hi hs hr
      have hle : l.length ≤ offset := by simp [hs] at hl; exact hl
      refine ⟨l :: a, x, b, by simp [he], ?_, ?_⟩
      · have := hc.start
        simp
        omega
      · refine hc.stop.imp (fun h => ?_) (fun ⟨h, hb⟩ => ⟨?_, hb⟩)
        all_goals simp; omega

-- A line by its number, between those before and after it.
theorem exists_parts {ls : List Line} {number : Nat} (hn : number < ls.length) :
    ∃ a x b, ls = a ++ x :: b ∧ a.length = number :=
  ⟨ls.take number, ls[number], ls.drop (number + 1), by simp, by simp; omega⟩

end Line

namespace Slots

-- The slots in use and the free ones are all the slots there are, each of them once.
def Accounts (s : Slots) (inUse : List Nat) : Prop :=
  (inUse ++ s.free).Perm (List.range s.size)

variable {s : Slots} {a b : List Nat}

theorem Accounts.length_eq (h : s.Accounts a) : a.length + s.free.length = s.size := by
  simpa using List.Perm.length_eq h

-- No slot is in use and free, and none of them twice.
theorem Accounts.nodup (h : s.Accounts a) : (a ++ s.free).Nodup :=
  (List.Perm.nodup_iff h).mpr List.nodup_range

theorem accounts_used (size : Nat) : (used size).Accounts (List.range size) := by
  simp [Accounts, used]

theorem Accounts.take (h : s.Accounts (a ++ b)) : s.take.snd.Accounts (a ++ s.take.fst :: b) := by
  have ⟨size, free⟩ := s
  unfold Accounts at *
  cases free
  case nil =>
    have hp : (a ++ size :: b).Perm ((a ++ b) ++ [size]) := by
      simpa using List.perm_middle.trans (List.perm_append_singleton size (a ++ b)).symm
    simp only [Slots.take, List.append_nil, List.range_succ] at h ⊢
    exact hp.trans (h.append_right [size])
  case cons slot free =>
    have hp : (slot :: (b ++ free)).Perm (b ++ slot :: free) := List.perm_middle.symm
    exact List.Perm.trans (by simpa [Slots.take] using hp.append_left a) h

theorem Accounts.release {slot : Nat} (h : s.Accounts (a ++ slot :: b)) :
    (s.release slot).Accounts (a ++ b) := by
  have hp : (b ++ slot :: s.free).Perm (slot :: (b ++ s.free)) := List.perm_middle
  exact List.Perm.trans (by simpa [Slots.release] using hp.append_left a) h

end Slots

namespace LineTree

open Counters

variable {t l r : LineTree} {up : Option Nat} {ls a b : List Cell} {x : Cell}
  {h number o limit : Nat}

section Build

-- A tree built from `n` lines has as many levels as `n` has binary digits.
structure Filled (height n : Nat) : Prop where
  upper : n < 2 ^ height
  lower : 2 ^ height ≤ max 1 (2 * n)

theorem Filled.le {h₁ h₂ n₁ n₂ : Nat} (f₁ : Filled h₁ n₁) (f₂ : Filled h₂ n₂) (hn : n₂ ≤ n₁) :
    h₂ ≤ h₁ := by
  refine Nat.le_of_not_lt fun hlt => ?_
  have hp : 2 ^ (h₁ + 1) ≤ 2 ^ h₂ := Nat.pow_le_pow_right (by decide) hlt
  have ⟨hu, _⟩ := f₁
  have ⟨_, hl⟩ := f₂
  omega

theorem Filled.le_succ {h₁ h₂ n₁ n₂ : Nat} (f₁ : Filled h₁ n₁) (f₂ : Filled h₂ n₂)
    (hn : n₁ ≤ n₂ + 1) : h₁ ≤ h₂ + 1 := by
  refine Nat.le_of_not_lt fun hlt => ?_
  have hp : 2 ^ (h₂ + 1 + 1) ≤ 2 ^ h₁ := Nat.pow_le_pow_right (by decide) hlt
  have ⟨_, hl⟩ := f₁
  have ⟨hu, _⟩ := f₂
  omega

theorem ofList_nil {first : Nat} : ofList up first [] = nil := by
  unfold ofList
  rfl

theorem ofList_append {a b : List Line} {x : Line} {first : Nat}
    (hl : (a ++ x :: b).length / 2 = a.length) :
    ofList up first (a ++ x :: b) =
      let slot  := first + a.length
      let left  := ofList slot first a
      let right := ofList slot (slot + 1) b
      node up left (Line.totalLength a) a.length ⟨slot, x⟩
        (if right.height < left.height then .left else .even) right := by
  rw [ofList]
  split
  case h_1 he => simp only [hl, List.drop_left, reduceCtorEq] at he
  case h_2 line rest he =>
    simp only [hl, List.drop_left, List.cons.injEq] at he
    obtain ⟨rfl, rfl⟩ := he
    simp only [hl, List.take_left]

-- The left half has as many lines as the right one or one more.
theorem exists_halves (ls : List Line) (hn : ls ≠ []) :
    ∃ a x b, ls = a ++ x :: b ∧ ls.length / 2 = a.length ∧ b.length ≤ a.length ∧
      a.length ≤ b.length + 1 := by
  have hp := List.length_pos_iff.mpr hn
  have hd : ls.drop (ls.length / 2) ≠ [] := by simp; omega
  have ⟨x, b, he⟩ := List.exists_cons_of_ne_nil hd
  have hb := congrArg List.length he
  simp at hb
  refine ⟨ls.take (ls.length / 2), x, b, ?_, ?_, ?_, ?_⟩
  · rw [← he, List.take_append_drop]
  all_goals simp; omega

-- Lines in the slots from a number on.
def enumerate (first : Nat) : List Line → List Cell
  | []      => []
  | l :: ls => ⟨first, l⟩ :: enumerate (first + 1) ls

section

variable {first : Nat} {a b : List Line}

theorem enumerate_append :
    enumerate first (a ++ b) = enumerate first a ++ enumerate (first + a.length) b := by
  induction a generalizing first
  case nil => rfl
  case cons l ls hi => simp [enumerate, hi, Nat.add_assoc, Nat.add_comm 1]

theorem map_line_enumerate : (enumerate first a).map Cell.line = a := by
  induction a generalizing first
  case nil => rfl
  case cons l ls hi => simp [enumerate, hi]

theorem map_slot_enumerate : (enumerate first a).map Cell.slot = List.range' first a.length := by
  induction a generalizing first
  case nil => rfl
  case cons l ls hi => simp [enumerate, hi, List.range'_succ]

theorem totalLength_enumerate : Cell.totalLength (enumerate first a) = Line.totalLength a := by
  rw [Cell.totalLength, map_line_enumerate]

theorem length_enumerate : (enumerate first a).length = a.length := by
  rw [← List.length_map Cell.line, map_line_enumerate]

end

theorem ofList_shape (up : Option Nat) (first : Nat) (ls : List Line) :
    ∃ h, Filled h ls.length ∧ (ofList up first ls).Shape up (enumerate first ls) h := by
  by_cases hn : ls = []
  case pos => exact ⟨0, ⟨by simp [hn], by simp [hn]⟩, hn ▸ ofList_nil ▸ Shape.nil⟩
  case neg =>
    have ⟨a, x, b, he, hl, hba, hab⟩ := exists_halves ls hn
    subst he
    have ⟨ha, fa, sa⟩ := ofList_shape (first + a.length) first a
    have ⟨hb, fb, sb⟩ := ofList_shape (first + a.length) (first + a.length + 1) b
    have h₁ := fa.le fb hba
    have h₂ := fa.le_succ fb hab
    simp only [ofList_append hl, sa.height, sb.height]
    rw [enumerate_append, enumerate]
    refine ⟨_, ?_, sa.node up sb totalLength_enumerate.symm length_enumerate.symm ?_⟩
    · have hm : max ha hb = ha := by omega
      have ⟨hu, hl⟩ := fa
      rw [hm]
      refine ⟨?_, ?_⟩ <;> simp only [Nat.pow_succ, List.length_append, List.length_cons] <;> omega
    · split <;> simp only [Balance.toInt] <;> omega
termination_by ls.length
decreasing_by all_goals simp only [he, List.length_append, List.length_cons]; omega

end Build

section Lookup

theorem Shape.lineCount_eq (s : t.Shape up ls h) : t.lineCount = ls.length := by
  induction t generalizing up ls h
  case nil => simp [lineCount, ← s.cells, LineTree.cells]
  case node up l c n y bal r _ hir =>
    obtain ⟨la, lb, _, _, _, sr, he, _, _, hn, _⟩ := s.node_inv
    simp [lineCount, hir sr, he, hn]
    omega

theorem Shape.charCount_eq (s : t.Shape up ls h) : t.charCount = Cell.totalLength ls := by
  induction t generalizing up ls h
  case nil => simp [charCount, ← s.cells, LineTree.cells]
  case node up l c n y bal r _ hir =>
    obtain ⟨la, lb, _, _, _, sr, he, _, hc, _⟩ := s.node_inv
    simp [charCount, hir sr, he, hc]
    omega

theorem Shape.line?_eq (s : t.Shape up (a ++ x :: b) h) :
    t.line? a.length = some ⟨x, a.length, Cell.totalLength a⟩ := by
  induction t generalizing up a b h
  case nil => exact absurd s.cells (by simp [LineTree.cells])
  case node up l c n y bal r hil hir =>
    obtain ⟨la, lb, _, _, sl, sr, he, _, hc, hn, _⟩ := s.node_inv
    subst hc hn
    rcases append_cons_cases he with ⟨d, rfl, rfl⟩ | ⟨rfl, rfl, rfl⟩ | ⟨d, rfl, rfl⟩
    · rw [line?, if_neg (by simp), if_pos (by simp), hil sl]
    · rw [line?, if_pos rfl]
    · rw [line?, length_append_cons, if_neg (by omega), if_neg (by omega),
        Nat.add_sub_cancel_left, hir sr]
      simp [Located.shift]
      omega

theorem Shape.line?_eq_none (s : t.Shape up ls h) (hn : ls.length ≤ number) :
    t.line? number = none := by
  induction t generalizing up ls h number
  case nil => rfl
  case node up l c n y bal r _ hir =>
    have ⟨la, lb, _, _, _, sr, he, _, _, hn', _⟩ := s.node_inv
    subst he hn'
    rw [length_append_cons] at hn
    have hr : r.line? (number - (la.length + 1)) = none := hir sr (by omega)
    rw [line?, if_neg (by omega), if_neg (by omega), hr]
    rfl

-- The line is looked for with what is left of the offset behind the lines before the tree, which
-- have `base` characters.
theorem Shape.seekM_yields (base number : Nat) (s : t.Shape up (a ++ x :: b) h)
    (hlo : Cell.totalLength a ≤ o)
    (hhi : o < Cell.totalLength a + x.length ∨ o = Cell.totalLength a + x.length ∧ b = [])
    (hlt : base + o < limit) :
    Yields limit (fun _ => t.seekM (base + o) o number)
      ⟨x, number + a.length, base + Cell.totalLength a⟩ := by
  induction t generalizing up a b h o base number
  case nil => exact absurd s.cells (by simp [LineTree.cells])
  case node up l c n y bal r hil hir =>
    obtain ⟨la, lb, _, _, sl, sr, he, _, hc, hn, _⟩ := s.node_inv
    subst hc hn
    intro μ _ _ _ k
    beta_reduce
    rcases append_cons_cases he with ⟨d, rfl, rfl⟩ | ⟨rfl, rfl, rfl⟩ | ⟨d, rfl, rfl⟩
    · have hin : o < Cell.totalLength a + x.length := by simpa using hhi
      rw [seekM, if_pos (by simp; omega)]
      exact hil base number sl hlo (.inl hin) hlt μ k
    · have hnil : b = [] → r.isNil := fun hb => by
        subst hb
        rw [sr.eq_nil]
        rfl
      rw [seekM, if_neg (by omega)]
      refine k.bind (k.sub (k := o - Cell.totalLength a) (by omega) (by omega)) ?_
      rw [if_pos (hhi.imp (by omega) (And.imp (by omega) hnil))]
      exact k.bind (k.sub (by omega) hlt) <| k.pure _
    · have hcons : ¬r.isNil := by
        cases r
        case nil  => exact absurd sr.cells (by simp [LineTree.cells])
        case node => simp [isNil]
      simp at hlo hhi
      have hbase : base + o = base + Cell.totalLength la + y.length +
          (o - Cell.totalLength la - y.length) := by
        omega
      have g := hir (o := o - Cell.totalLength la - y.length)
        (base + Cell.totalLength la + y.length) (number + la.length + 1) sr (by omega)
        (hhi.imp (by omega) fun h => ⟨by omega, h.right⟩) (by omega)
      rw [seekM, if_neg (by omega)]
      refine k.bind (k.sub (k := o - Cell.totalLength la) (by omega) (by omega)) ?_
      rw [if_neg (by simp [hcons]; omega)]
      refine k.bind (k.sub (k := o - Cell.totalLength la - y.length) (by omega) (by omega)) ?_
      rw [hbase]
      simpa [Nat.add_assoc, Nat.add_comm 1] using g μ k

theorem Shape.lineAtM_yields (s : t.Shape up (a ++ x :: b) h) (hlo : Cell.totalLength a ≤ o)
    (hhi : o < Cell.totalLength a + x.length ∨ o = Cell.totalLength a + x.length ∧ b = [])
    (hlt : o < limit) :
    Yields limit (fun _ => t.lineAtM o) ⟨x, a.length, Cell.totalLength a⟩ := by
  have g : Yields limit (fun _ => t.seekM (0 + o) o 0)
      ⟨x, 0 + a.length, 0 + Cell.totalLength a⟩ :=
    s.seekM_yields 0 0 hlo hhi (by omega)
  rw [Nat.zero_add, Nat.zero_add, Nat.zero_add] at g
  exact g

theorem Shape.seekM_eq_none (offset number : Nat) (s : t.Shape up ls h)
    (ho : Cell.totalLength ls < o) : (t.seekM offset o number : Option Located) = none := by
  induction t generalizing up ls h o number
  case nil => rfl
  case node up l c n y bal r _ hir =>
    have ⟨la, lb, _, _, _, sr, he, _, hc, _⟩ := s.node_inv
    subst he hc
    simp at ho
    have hchars : (sub o (Cell.totalLength la) : Option Nat) = some (o - Cell.totalLength la) :=
      if_pos (by omega)
    have hline : (sub (o - Cell.totalLength la) y.length : Option Nat) =
        some (o - Cell.totalLength la - y.length) :=
      if_pos (by omega)
    rw [seekM, if_neg (by omega), hchars, Option.bind_eq_bind, Option.bind_some,
      if_neg (by omega), hline, Option.bind_some]
    exact hir _ sr (by omega)

theorem Shape.lineAt?_eq_none (s : t.Shape up ls h) (ho : Cell.totalLength ls < o) :
    t.lineAt? o = none :=
  s.seekM_eq_none o 0 ho

end Lookup

end LineTree

namespace LineIndex

open Counters

-- An index with the given lines: a valid tree, whose nodes are in slots of their own.
structure Holds (ix : LineIndex) (lines : List Line) : Prop where
  valid : ix.tree.Valid none
  lines : ix.tree.toList = lines
  slots : ix.slots.Accounts (ix.tree.cells.map Cell.slot)

variable {ix : LineIndex} {ls a b : List Line} {x : Line} {number o : Nat}

theorem Holds.shape (h : ix.Holds ls) : ix.tree.Shape none ix.tree.cells ix.tree.height :=
  h.valid.shape

theorem Holds.of_shape {t : LineTree} {slots : Slots} {cs : List Cell} {height : Nat}
    (s : t.Shape none cs height) (hs : slots.Accounts (cs.map Cell.slot))
    (hl : cs.map Cell.line = ls) : Holds ⟨t, slots⟩ ls where
  valid := s.valid
  lines := by rw [LineTree.toList, s.cells, hl]
  slots := by rwa [s.cells]

-- The cells before and after a place between two lines.
theorem Holds.exists_cells (h : ix.Holds (a ++ b)) :
    ∃ c d, ix.tree.cells = c ++ d ∧ c.map Cell.line = a ∧ d.map Cell.line = b :=
  List.map_eq_append_iff.mp h.lines

-- The cell of a line, with those before and after it.
theorem Holds.exists_cell (h : ix.Holds (a ++ x :: b)) :
    ∃ c y d, ix.tree.cells = c ++ y :: d ∧ c.map Cell.line = a ∧ y.line = x ∧
      d.map Cell.line = b := by
  have ⟨c, e, he, hc, hd⟩ := h.exists_cells
  have ⟨y, d, hy, hx, hb⟩ := List.map_eq_cons_iff.mp hd
  exact ⟨c, y, d, hy ▸ he, hc, hx, hb⟩

theorem ofLines_holds (ls : List Line) : (ofLines ls).Holds ls := by
  have ⟨_, _, s⟩ := LineTree.ofList_shape none 0 ls
  refine Holds.of_shape s ?_ LineTree.map_line_enumerate
  rw [LineTree.map_slot_enumerate, ← List.range_eq_range']
  exact Slots.accounts_used _

section Lookup

theorem Holds.lineCount_eq (h : ix.Holds ls) : ix.tree.lineCount = ls.length := by
  rw [h.shape.lineCount_eq, ← h.lines, LineTree.toList, List.length_map]

theorem Holds.charCount_eq (h : ix.Holds ls) : ix.tree.charCount = Line.totalLength ls := by
  rw [h.shape.charCount_eq, ← h.lines, LineTree.toList, Cell.totalLength]

theorem Holds.line?_eq (h : ix.Holds (a ++ x :: b)) :
    ∃ slot, ix.tree.line? a.length = some ⟨⟨slot, x⟩, a.length, Line.totalLength a⟩ := by
  have ⟨c, y, d, he, hc, hx, _⟩ := h.exists_cell
  subst hc hx
  exact ⟨y.slot, by simpa [Cell.totalLength] using (he ▸ h.shape).line?_eq⟩

theorem Holds.line?_eq_none (h : ix.Holds ls) (hn : ls.length ≤ number) :
    ix.tree.line? number = none := by
  rw [← h.lines, LineTree.toList, List.length_map] at hn
  exact h.shape.line?_eq_none hn

theorem Holds.lineAtM_yields (h : ix.Holds (a ++ x :: b)) (hc : Line.Covers a x b o) :
    ∃ slot, ∀ limit, o < limit →
      Yields limit (fun _ => ix.tree.lineAtM o) ⟨⟨slot, x⟩, a.length, Line.totalLength a⟩ := by
  have ⟨c, y, d, he, hc', hx, hd⟩ := h.exists_cell
  subst hc' hx hd
  refine ⟨y.slot, fun limit hlt => ?_⟩
  have g := (he ▸ h.shape).lineAtM_yields hc.start
    (by simpa [Cell.totalLength, Cell.length] using hc.stop) hlt
  simpa [Cell.totalLength] using g

theorem Holds.lineAt?_eq (h : ix.Holds (a ++ x :: b)) (hc : Line.Covers a x b o) :
    ∃ slot, ix.tree.lineAt? o = some ⟨⟨slot, x⟩, a.length, Line.totalLength a⟩ := by
  have ⟨slot, g⟩ := h.lineAtM_yields hc
  exact ⟨slot, (g (o + 4) (by omega)).eq_some (by omega)⟩

theorem Holds.lineAt?_eq_none (h : ix.Holds ls) (ho : Line.totalLength ls < o) :
    ix.tree.lineAt? o = none := by
  rw [← h.lines] at ho
  exact h.shape.lineAt?_eq_none ho

end Lookup

section Change

variable {delta : Int} {k m limit : Nat} {newline : Option Newline}

theorem Holds.adjustM_yields (h : ix.Holds (a ++ ⟨m, newline⟩ :: b)) (hk : (k : Int) = m + delta)
    (hz : newline.isSome → 0 < k) (hlo : -(limit / 2 : Nat) ≤ delta)
    (hhi : delta < (limit / 2 : Nat)) (hf : Line.totalLength (a ++ ⟨k, newline⟩ :: b) < limit) :
    ∃ ix', Yields limit (fun _ => ix.adjustM a.length delta) ix' ∧
      ix'.Holds (a ++ ⟨k, newline⟩ :: b) := by
  obtain ⟨c, y, d, he, hc, hy, hd⟩ := h.exists_cell
  subst hc hd
  have hk' : (k : Int) = y.length + delta := by simp [Cell.length, hy, hk]
  have hf' : Cell.totalLength (c ++ y.withLength k :: d) < limit := by
    simpa [Cell.totalLength, Cell.withLength] using hf
  obtain ⟨t, gt, s⟩ := LineTree.resizeM_shape (he ▸ h.shape) hk' hlo hhi hf'
  have hs : ix.slots.Accounts ((c ++ y.withLength k :: d).map Cell.slot) := by
    simpa [he] using h.slots
  have hl := s.line?_eq
  simp only [Cell.withLength, hy] at hl
  have hne : ¬(k = 0 ∧ newline.isSome) := fun h => Nat.ne_of_gt (hz h.right) h.left
  refine ⟨⟨t, ix.slots⟩, fun μ _ _ _ c => ?_, Holds.of_shape s hs (by simp [Cell.withLength, hy])⟩
  beta_reduce
  rw [List.length_map]
  refine c.bind (gt μ c) <| c.bind (c.ofOption hl) ?_
  rw [if_neg hne]
  exact c.pure _

-- A line that has a newline disappears when all of its characters do, and its slot becomes free.
theorem Holds.adjustM_remove (h : ix.Holds (a ++ ⟨m, newline⟩ :: b)) (hn : newline.isSome)
    (hb : Line.EndOpen b) (hfc : Line.totalLength (a ++ ⟨m, newline⟩ :: b) ≤ limit / 2)
    (hfn : (a ++ ⟨m, newline⟩ :: b).length < limit) :
    ∃ ix', Yields limit (fun _ => ix.adjustM a.length (-m)) ix' ∧ ix'.Holds (a ++ b) := by
  obtain ⟨c, y, d, he, hc, hy, hd⟩ := h.exists_cell
  subst hc hd
  have hl : y.length = m := by rw [Cell.length, hy]
  have hm : ((0 : Nat) : Int) = y.length + -m := by omega
  simp at hfc hfn
  have hfc' : Cell.totalLength (c ++ y.withLength 0 :: d) ≤ limit / 2 := by
    simp [Cell.totalLength, Cell.withLength]
    omega
  have hfc'' : Cell.totalLength (c ++ y.withLength 0 :: d) < limit := by omega
  obtain ⟨t, gt, s⟩ :=
    LineTree.resizeM_shape (he ▸ h.shape) hm (by omega) (by omega) hfc''
  obtain ⟨t', lower, _, gt', s', _⟩ := LineTree.removeM_shrinks s rfl hfc' (by simp; omega)
  have hr : t.Removable c.length := by
    refine ⟨c.map Cell.line, (y.withLength 0).line, d.map Cell.line, ?_, by simp, rfl, ?_, hb⟩
    · simp [LineTree.toList, s.cells]
    · simpa [Cell.withLength, hy] using hn
  have hs : (ix.slots.release y.slot).Accounts ((c ++ d).map Cell.slot) := by
    rw [List.map_append]
    exact Slots.Accounts.release (by simpa [he] using h.slots)
  have hat := s.line?_eq
  simp only [Cell.withLength, hy] at hat
  refine ⟨⟨t', ix.slots.release y.slot⟩, fun μ _ _ _ c => ?_, Holds.of_shape s' hs (by simp)⟩
  beta_reduce
  rw [List.length_map]
  refine c.bind (gt μ c) <| c.bind (c.ofOption hat) ?_
  rw [if_pos ⟨rfl, hn⟩]
  exact c.bind (c.removing hr) <| c.bind (gt' μ c) <| c.pure _

theorem Holds.setNewline?_eq (h : ix.Holds (a ++ x :: b)) (newline : Option Newline) :
    ∃ ix', ix.setNewline? a.length newline = some ix' ∧
      ix'.Holds (a ++ ⟨x.length, newline⟩ :: b) := by
  have ⟨c, y, d, he, hc, hy, hd⟩ := h.exists_cell
  subst hc hy hd
  have ⟨t, ht, s⟩ := LineTree.setNewline?_shape newline (he ▸ h.shape)
  have hs : ix.slots.Accounts ((c ++ y.withNewline newline :: d).map Cell.slot) := by
    simpa [he] using h.slots
  exact ⟨⟨t, ix.slots⟩, by simp [setNewline?, ht], Holds.of_shape s hs (by simp [Cell.withNewline])⟩

-- One line more, in a slot that was free or did not exist.
theorem Holds.insertLineM_yields (h : ix.Holds (a ++ b)) (l : Line) (hl : l.length < limit / 2)
    (hfc : Line.totalLength (a ++ l :: b) < limit) (hfn : (a ++ l :: b).length < limit) :
    ∃ ix', Yields limit (fun _ => ix.insertLineM a.length l) ix' ∧ ix'.Holds (a ++ l :: b) := by
  obtain ⟨c, d, he, hc, hd⟩ := h.exists_cells
  subst hc hd
  have hf : Cell.Fits limit (c ++ ⟨ix.slots.take.fst, l⟩ :: d) :=
    ⟨by simpa [Cell.totalLength] using hfc, by simpa using hfn⟩
  obtain ⟨t, higher, gt, s⟩ :=
    LineTree.insertM_grows ⟨ix.slots.take.fst, l⟩ (he ▸ h.shape) hl hf
  have hs : ix.slots.Accounts (c.map Cell.slot ++ d.map Cell.slot) := by simpa [he] using h.slots
  refine ⟨⟨t, ix.slots.take.snd⟩, fun μ _ _ _ k => ?_,
    Holds.of_shape s (by simpa using hs.take) (by simp)⟩
  beta_reduce
  rw [List.length_map]
  exact k.bind (gt μ k) <| k.pure _

-- Whole lines that have newlines are removed one after the other.
theorem Holds.removeLinesM_yields (h : ix.Holds (a ++ ls ++ b))
    (hn : ∀ l ∈ ls, l.newline.isSome) (hb : Line.EndOpen b) (length : Nat)
    (hfc : Line.totalLength (a ++ ls ++ b) ≤ limit / 2) (hfn : (a ++ ls ++ b).length < limit)
    (hlength : Line.totalLength ls + length < limit) :
    ∃ ix', Yields limit
        (fun _ => ix.removeLinesM a.length ls.length (Line.totalLength ls + length)) (ix', length) ∧
      ix'.Holds (a ++ b) := by
  induction ls generalizing ix
  case nil =>
    refine ⟨ix, ?_, by simpa using h⟩
    rw [Line.totalLength_nil, Nat.zero_add]
    exact fun μ _ _ _ k => k.pure _
  case cons l ls hi =>
    have h₀ : ix.Holds (a ++ l :: (ls ++ b)) := by simpa using h
    have hfc₀ : Line.totalLength (a ++ l :: (ls ++ b)) ≤ limit / 2 := by simpa using hfc
    simp at hfc hfn hlength
    obtain ⟨ix₁, g₁, h₁⟩ := h₀.adjustM_remove (hn l (by simp)) (hb.append ls) hfc₀
      (by simp; omega)
    replace h₁ : ix₁.Holds (a ++ ls ++ b) := by simpa using h₁
    obtain ⟨ix', g, h'⟩ := hi h₁ (fun l' hl' => hn l' (by simp [hl'])) (by simp; omega)
      (by simp; omega) (by omega)
    obtain ⟨_, hl⟩ := h₀.line?_eq
    refine ⟨ix', fun μ _ _ _ k => ?_, h'⟩
    exact k.bind (k.ofOption hl) <| k.bind (k.sub (by simp; omega) (by simp; omega)) <|
      k.bind (g₁ μ k) <| g μ k

-- A line goes over into the next one, which keeps its newline.
theorem Holds.joinM_yields {m' : Nat} {newline' : Option Newline}
    (h : ix.Holds (a ++ ⟨m, newline⟩ :: ⟨m', newline'⟩ :: b)) (hn : newline.isSome)
    (hb : Line.EndOpen (⟨m', newline'⟩ :: b))
    (hfc : Line.totalLength (a ++ ⟨m, newline⟩ :: ⟨m', newline'⟩ :: b) ≤ limit / 2)
    (hfn : (a ++ ⟨m, newline⟩ :: ⟨m', newline'⟩ :: b).length < limit)
    (hk : (k : Int) = m + m' + delta) (hz : newline'.isSome → 0 < k)
    (hlo : -(limit / 2 : Nat) ≤ m + delta) (hhi : m + delta < (limit / 2 : Nat))
    (hf : Line.totalLength (a ++ ⟨k, newline'⟩ :: b) < limit) :
    ∃ ix', Yields limit (fun _ => ix.joinM a.length delta) ix' ∧
      ix'.Holds (a ++ ⟨k, newline'⟩ :: b) := by
  obtain ⟨ix₁, g₁, h₁⟩ := h.adjustM_remove hn hb hfc hfn
  have hk' : (k : Int) = m' + (m + delta) := by omega
  obtain ⟨ix', g, h'⟩ := h₁.adjustM_yields hk' hz hlo hhi hf
  obtain ⟨_, hl⟩ := h.line?_eq
  refine ⟨ix', fun μ _ _ _ k => ?_, h'⟩
  exact k.bind (k.ofOption hl) <| k.bind (g₁ μ k) <| g μ k

end Change

end LineIndex
end Caret
