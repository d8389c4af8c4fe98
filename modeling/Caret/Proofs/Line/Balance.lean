import Caret.Proofs.Line.Counting
import Mathlib.Tactic.DefEqTransformations

-- What the elementary changes of a line tree do to its lines. A tree is valid if its links,
-- counters and balances are right; every change of a valid tree succeeds, and it gives a valid tree
-- whose height the flag tells. Its numbers have to be large enough to count the characters and the
-- lines.
namespace Caret

-- The subtrees of the middle node of a double rotation reach the height of the other two subtrees
-- or stay one level below it.
theorem Balance.spread_eq {b : Balance} {h hl hr : Nat} (hb : (hr : Int) = hl + b.toInt)
    (hm : max hl hr = h) :
    (hl : Int) = h + b.spread.fst.toInt ∧ (h : Int) = hr + b.spread.snd.toInt := by
  cases b <;> simp only [toInt, spread] at * <;> omega

namespace Cell

-- The number of characters of some lines.
def totalLength (cs : List Cell) : Nat :=
  Line.totalLength (cs.map Cell.line)

variable {c : Cell} {cs cs' : List Cell}

@[simp]
theorem withLength_slot (length : Nat) : (c.withLength length).slot = c.slot :=
  rfl

@[simp]
theorem withLength_length (length : Nat) : (c.withLength length).length = length :=
  rfl

@[simp]
theorem withNewline_slot (newline : Option Newline) : (c.withNewline newline).slot = c.slot :=
  rfl

@[simp]
theorem withNewline_length (newline : Option Newline) : (c.withNewline newline).length = c.length :=
  rfl

@[simp]
theorem totalLength_nil : totalLength [] = 0 :=
  rfl

@[simp]
theorem totalLength_cons : totalLength (c :: cs) = c.length + totalLength cs := by
  simp [totalLength, Cell.length]

@[simp]
theorem totalLength_append : totalLength (cs ++ cs') = totalLength cs + totalLength cs' := by
  simp [totalLength]

-- The characters and the lines can be counted.
structure Fits (limit : Nat) (cs : List Cell) : Prop where
  chars : totalLength cs < limit
  lines : cs.length < limit

end Cell

namespace LineTree

open Counters

-- Every node is linked to the one above it, the root to `up`; the counters of a node are those of
-- its left subtree, and its balance is the difference of the heights.
def Valid (up : Option Nat) : LineTree → Prop
  | nil                             => True
  | node parent l chars lines x b r =>
    parent = up ∧ l.Valid x.slot ∧ r.Valid x.slot ∧ chars = Cell.totalLength l.cells ∧
      lines = l.cells.length ∧ (r.height : Int) = l.height + b.toInt

-- A valid tree with the given cells and the given height.
structure Shape (t : LineTree) (up : Option Nat) (cells : List Cell) (height : Nat) : Prop where
  valid  : t.Valid up
  cells  : t.cells = cells
  height : t.height = height

variable {t l r : LineTree} {up up' : Option Nat} {ls a b : List Cell} {h hl hr : Nat} {x : Cell}

theorem Valid.shape (v : t.Valid up) : t.Shape up t.cells t.height :=
  ⟨v, rfl, rfl⟩

namespace Shape

theorem nil : LineTree.nil.Shape up [] 0 :=
  ⟨trivial, rfl, rfl⟩

theorem adopt (up : Option Nat) (s : t.Shape up' ls h) : (t.adopt up).Shape up ls h := by
  cases t
  case nil => exact ⟨trivial, s.cells, s.height⟩
  case node => exact ⟨⟨rfl, s.valid.right⟩, s.cells, s.height⟩

-- A node is put together from its subtrees.
theorem node (up : Option Nat) {b : Balance} {la lb : List Cell} {c n : Nat}
    (sl : l.Shape x.slot la hl) (sr : r.Shape x.slot lb hr) (hc : c = Cell.totalLength la)
    (hn : n = la.length) (hb : (hr : Int) = hl + b.toInt) :
    (LineTree.node up l c n x b r).Shape up (la ++ x :: lb) (max hl hr + 1) where
  valid  := by simp [Valid, sl.valid, sr.valid, sl.cells, sl.height, sr.height, hc, hn, hb]
  cells  := by simp [LineTree.cells, sl.cells, sr.cells]
  height := by simp [LineTree.height, sl.height, sr.height]

-- A node is taken apart into its subtrees.
theorem node_inv {b : Balance} {chars lines : Nat}
    (s : (LineTree.node up' l chars lines x b r).Shape up ls h) :
    ∃ la lb hl hr, l.Shape x.slot la hl ∧ r.Shape x.slot lb hr ∧ ls = la ++ x :: lb ∧
      h = max hl hr + 1 ∧ chars = Cell.totalLength la ∧ lines = la.length ∧
      (hr : Int) = hl + b.toInt ∧ up' = up := by
  have ⟨⟨hp, vl, vr, hc, hn, hb⟩, ht, hh⟩ := s
  exact ⟨_, _, _, _, vl.shape, vr.shape, ht.symm, hh.symm, hc, hn, hb, hp⟩

theorem eq_nil (s : t.Shape up [] h) : t = .nil := by
  cases t
  case nil => rfl
  case node => exact absurd s.cells (by simp [LineTree.cells])

theorem exists_node (s : t.Shape up ls (h + 1)) : ∃ l c n x b r, t = .node up l c n x b r := by
  cases t
  case nil  => exact absurd s.height (by simp [LineTree.height])
  case node =>
    obtain rfl := s.valid.left
    exact ⟨_, _, _, _, _, _, rfl⟩

theorem exists_node_of_cons (s : t.Shape up (x :: ls) h) :
    ∃ l c n x b r, t = .node up l c n x b r := by
  cases t
  case nil  => exact absurd s.cells (by simp [LineTree.cells])
  case node =>
    obtain rfl := s.valid.left
    exact ⟨_, _, _, _, _, _, rfl⟩

end Shape

-- An operation succeeds, and its flag tells whether the result is higher than `height`.
def Grows (limit : Nat) (x : Calculation (LineTree × Bool)) (up : Option Nat) (cells : List Cell)
    (height : Nat) : Prop :=
  ∃ t higher, Yields limit x (t, higher) ∧ t.Shape up cells (height + higher.toNat)

-- An operation succeeds, and its flag tells whether the result is lower than `height`.
def Shrinks (limit : Nat) (x : Calculation (LineTree × Bool)) (up : Option Nat) (cells : List Cell)
    (height : Nat) : Prop :=
  ∃ t lower h, Yields limit x (t, lower) ∧ t.Shape up cells h ∧ height = h + lower.toNat

variable {limit : Nat}

section

variable {x : Calculation (LineTree × Bool)} {ls' : List Cell} {h' : Nat} {f : Bool}

theorem Shape.grows (s : t.Shape up ls' h') (hx : Yields limit x (t, f)) (hl : ls' = ls)
    (hh : h' = h + f.toNat) : Grows limit x up ls h :=
  ⟨t, f, hx, hl ▸ hh ▸ s⟩

theorem Shape.shrinks (s : t.Shape up ls' h') (hx : Yields limit x (t, f)) (hl : ls' = ls)
    (hh : h = h' + f.toNat) : Shrinks limit x up ls h :=
  ⟨t, f, h', hx, hl ▸ s, hh⟩

end

section Rotate

variable {la lb : List Cell} {chars lines : Nat}

-- What a double rotation puts together: four subtrees under two nodes of the same height.
theorem double_shape (up : Option Nat) {t₁ t₂ t₃ t₄ : LineTree} {l₁ l₂ l₃ l₄ : List Cell}
    {h₁ h₂ h₃ h₄ : Nat} {x y z : Cell} {b d : Balance} (s₁ : t₁.Shape x.slot l₁ h₁)
    (s₂ : t₂.Shape x.slot l₂ h₂) (s₃ : t₃.Shape z.slot l₃ h₃) (s₄ : t₄.Shape z.slot l₄ h₄)
    (hb : (h₂ : Int) = h₁ + b.toInt) (hd : (h₄ : Int) = h₃ + d.toInt) (h₁₂ : max h₁ h₂ = h)
    (h₃₄ : max h₃ h₄ = h) :
    (node up
      (node y.slot t₁ (Cell.totalLength l₁) l₁.length x b t₂)
      (Cell.totalLength l₁ + x.length + Cell.totalLength l₂) (l₁.length + 1 + l₂.length) y .even
      (node y.slot t₃ (Cell.totalLength l₃) l₃.length z d t₄)
    ).Shape up (l₁ ++ x :: (l₂ ++ y :: (l₃ ++ z :: l₄))) (h + 2) := by
  have inner := s₁.node y.slot s₂ rfl rfl hb
  have outer := s₃.node y.slot s₄ rfl rfl hd
  have whole := inner.node up (b := .even) outer
    (c := Cell.totalLength l₁ + x.length + Cell.totalLength l₂) (n := l₁.length + 1 + l₂.length)
    (by simp; omega) (by simp; omega) (by simp [Balance.toInt, h₁₂, h₃₄])
  exact ⟨whole.valid, by simp [whole.cells], by simp [whole.height, h₁₂, h₃₄]⟩

theorem rotateRightM_grows (sl : l.Shape x.slot la (hr + 2)) (sr : r.Shape x.slot lb hr)
    (hc : chars = Cell.totalLength la) (hn : lines = la.length)
    (hf : Cell.Fits limit (la ++ x :: lb)) :
    Grows limit (fun _ => rotateRightM up l chars lines x r) up (la ++ x :: lb) (hr + 2) := by
  have ⟨l₁, c₁, n₁, y, b₁, r₁, he⟩ := sl.exists_node
  subst he
  have ⟨la₁, lb₁, h₁, h₂, s₁, s₂, he, hh, hc₁, hn₁, hb₁, _⟩ := sl.node_inv
  have ⟨hfc, hfn⟩ := hf
  subst he hc₁ hn₁
  simp at hc hn hfc hfn
  cases b₁ <;> simp only [Balance.toInt] at hb₁
  case left =>
    have inner := (s₂.adopt x.slot).node y.slot (b := .even) sr rfl rfl
      (by simp [Balance.toInt]; omega)
    have outer := s₁.node up (b := .even) inner rfl rfl (by simp [Balance.toInt]; omega)
    refine outer.grows (f := false) (fun μ _ _ _ c => ?_) (by simp) (by simp; omega)
    exact c.bind (c.sub (by omega) (by omega)) <| c.bind (c.sub (by omega) (by omega)) <| c.pure _
  case even =>
    have inner := (s₂.adopt x.slot).node y.slot (b := .left) sr rfl rfl
      (by simp [Balance.toInt]; omega)
    have outer := s₁.node up (b := .right) inner rfl rfl (by simp [Balance.toInt]; omega)
    refine outer.grows (f := true) (fun μ _ _ _ c => ?_) (by simp) (by simp; omega)
    exact c.bind (c.sub (by omega) (by omega)) <| c.bind (c.sub (by omega) (by omega)) <| c.pure _
  case right =>
    obtain rfl : h₂ = hr + 1 := by omega
    have ⟨l₂, c₂, n₂, z, b₂, r₂, he⟩ := s₂.exists_node
    subst he
    have ⟨la₂, lb₂, h₃, h₄, s₃, s₄, he, hh₂, hc₂, hn₂, hb₂, _⟩ := s₂.node_inv
    subst he hc₂ hn₂
    simp at hc hn hfc hfn
    obtain rfl : h₁ = hr := by omega
    have ⟨hx, hz⟩ := Balance.spread_eq hb₂ (h := h₁) (by omega)
    have s := double_shape up (y := z) s₁ (s₃.adopt y.slot) (s₄.adopt x.slot) sr hx hz
      (h := h₁) (by omega) (by omega)
    refine s.grows (f := false) (fun μ _ _ _ c => ?_) (by simp) (by simp)
    exact c.bind (c.add (by omega)) <| c.bind (c.add (by omega)) <|
      c.bind (c.sub (by omega) (by omega)) <| c.bind (c.sub (by omega) (by omega)) <| c.pure _

theorem rotateLeftM_grows (sl : l.Shape x.slot la hl) (sr : r.Shape x.slot lb (hl + 2))
    (hc : chars = Cell.totalLength la) (hn : lines = la.length)
    (hf : Cell.Fits limit (la ++ x :: lb)) :
    Grows limit (fun _ => rotateLeftM up l chars lines x r) up (la ++ x :: lb) (hl + 2) := by
  have ⟨l₁, c₁, n₁, y, b₁, r₁, he⟩ := sr.exists_node
  subst he hc hn
  have ⟨la₁, lb₁, h₁, h₂, s₁, s₂, he, hh, hc₁, hn₁, hb₁, _⟩ := sr.node_inv
  have ⟨hfc, hfn⟩ := hf
  subst he
  simp at hfc hfn
  cases b₁ <;> simp only [Balance.toInt] at hb₁
  case right =>
    have inner := sl.node y.slot (b := .even) (s₁.adopt x.slot) rfl rfl
      (by simp [Balance.toInt]; omega)
    have outer := inner.node up (b := .even) s₂ (c := Cell.totalLength la + x.length + c₁)
      (n := la.length + 1 + n₁) (by simp [hc₁]; omega) (by simp [hn₁]; omega)
      (by simp [Balance.toInt]; omega)
    refine outer.grows (f := false) (fun μ _ _ _ c => ?_) (by simp) (by simp; omega)
    exact c.bind (c.add (by omega)) <| c.bind (c.add (by omega)) <| c.pure _
  case even =>
    have inner := sl.node y.slot (b := .right) (s₁.adopt x.slot) rfl rfl
      (by simp [Balance.toInt]; omega)
    have outer := inner.node up (b := .left) s₂ (c := Cell.totalLength la + x.length + c₁)
      (n := la.length + 1 + n₁) (by simp [hc₁]; omega) (by simp [hn₁]; omega)
      (by simp [Balance.toInt]; omega)
    refine outer.grows (f := true) (fun μ _ _ _ c => ?_) (by simp) (by simp; omega)
    exact c.bind (c.add (by omega)) <| c.bind (c.add (by omega)) <| c.pure _
  case left =>
    obtain rfl : h₁ = hl + 1 := by omega
    have ⟨l₂, c₂, n₂, z, b₂, r₂, he⟩ := s₁.exists_node
    subst he
    have ⟨la₂, lb₂, h₃, h₄, s₃, s₄, he, hh₂, hc₂, hn₂, hb₂, _⟩ := s₁.node_inv
    subst he hc₂ hn₂
    simp at hc₁ hn₁ hfc hfn
    obtain rfl : h₂ = hl := by omega
    have ⟨hx, hz⟩ := Balance.spread_eq hb₂ (h := h₂) (by omega)
    have s := double_shape up (y := z) sl (s₃.adopt x.slot) (s₄.adopt y.slot) s₂ hx hz
      (h := h₂) (by omega) (by omega)
    refine s.grows (f := false) (fun μ _ _ _ c => ?_) (by simp) (by simp)
    exact c.bind (c.sub (by omega) (by omega)) <| c.bind (c.sub (by omega) (by omega)) <|
      c.bind (c.add (by omega)) <| c.bind (c.add (by omega)) <| c.pure _

variable {b : Balance}

theorem raisedLeftM_grows (up : Option Nat) (sl : l.Shape x.slot la (hl + 1))
    (sr : r.Shape x.slot lb hr) (hc : chars = Cell.totalLength la) (hn : lines = la.length)
    (hb : (hr : Int) = hl + b.toInt) (hf : Cell.Fits limit (la ++ x :: lb)) :
    Grows limit (fun _ => raisedLeftM up l chars lines x r b) up (la ++ x :: lb)
      (max hl hr + 1) := by
  cases b <;> simp only [Balance.toInt] at hb
  case right =>
    have s := sl.node up (b := .even) sr hc hn (by simp [Balance.toInt]; omega)
    exact s.grows (f := false) (fun _ _ _ _ c => c.pure _) rfl (by simp; omega)
  case even =>
    have s := sl.node up (b := .left) sr hc hn (by simp [Balance.toInt]; omega)
    exact s.grows (f := true) (fun _ _ _ _ c => c.pure _) rfl (by simp; omega)
  case left =>
    obtain rfl : hl = hr + 1 := by omega
    have hm : max (hr + 1) hr = hr + 1 := by omega
    rw [hm]
    exact rotateRightM_grows sl sr hc hn hf

theorem raisedRightM_grows (up : Option Nat) (sl : l.Shape x.slot la hl)
    (sr : r.Shape x.slot lb (hr + 1)) (hc : chars = Cell.totalLength la) (hn : lines = la.length)
    (hb : (hr : Int) = hl + b.toInt) (hf : Cell.Fits limit (la ++ x :: lb)) :
    Grows limit (fun _ => raisedRightM up l chars lines x r b) up (la ++ x :: lb)
      (max hl hr + 1) := by
  cases b <;> simp only [Balance.toInt] at hb
  case left =>
    have s := sl.node up (b := .even) sr hc hn (by simp [Balance.toInt]; omega)
    exact s.grows (f := false) (fun _ _ _ _ c => c.pure _) rfl (by simp; omega)
  case even =>
    have s := sl.node up (b := .right) sr hc hn (by simp [Balance.toInt]; omega)
    exact s.grows (f := true) (fun _ _ _ _ c => c.pure _) rfl (by simp; omega)
  case right =>
    obtain rfl : hr = hl + 1 := by omega
    have hm : max hl (hl + 1) = hl + 1 := by omega
    rw [hm]
    exact rotateLeftM_grows sl sr hc hn hf

-- A rotation that does not gain a level over the higher subtree has lost one over the old node.
theorem Grows.shrinks {x : Calculation (LineTree × Bool)} (g : Grows limit x up ls h) :
    Shrinks limit (fun μ => do let (t, higher) ← x μ; return (t, !higher)) up ls (h + 1) := by
  have ⟨t, higher, hx, s⟩ := g
  refine s.shrinks (f := !higher) (fun μ _ _ _ c => c.bind (hx μ c) (c.pure _)) rfl ?_
  cases higher <;> simp

theorem loweredLeftM_shrinks (up : Option Nat) (sl : l.Shape x.slot la hl)
    (sr : r.Shape x.slot lb hr) (hc : chars = Cell.totalLength la) (hn : lines = la.length)
    (hb : (hr : Int) = hl + 1 + b.toInt) (hf : Cell.Fits limit (la ++ x :: lb)) :
    Shrinks limit (fun _ => loweredLeftM up l chars lines x r b) up (la ++ x :: lb)
      (max (hl + 1) hr + 1) := by
  cases b <;> simp only [Balance.toInt] at hb
  case left =>
    have s := sl.node up (b := .even) sr hc hn (by simp [Balance.toInt]; omega)
    exact s.shrinks (f := true) (fun _ _ _ _ c => c.pure _) rfl (by simp; omega)
  case even =>
    have s := sl.node up (b := .right) sr hc hn (by simp [Balance.toInt]; omega)
    exact s.shrinks (f := false) (fun _ _ _ _ c => c.pure _) rfl (by simp; omega)
  case right =>
    obtain rfl : hr = hl + 2 := by omega
    have hm : max (hl + 1) (hl + 2) = hl + 2 := by omega
    rw [hm]
    exact (rotateLeftM_grows sl sr hc hn hf).shrinks

theorem loweredRightM_shrinks (up : Option Nat) (sl : l.Shape x.slot la hl)
    (sr : r.Shape x.slot lb hr) (hc : chars = Cell.totalLength la) (hn : lines = la.length)
    (hb : (hr : Int) + 1 = hl + b.toInt) (hf : Cell.Fits limit (la ++ x :: lb)) :
    Shrinks limit (fun _ => loweredRightM up l chars lines x r b) up (la ++ x :: lb)
      (max hl (hr + 1) + 1) := by
  cases b <;> simp only [Balance.toInt] at hb
  case right =>
    have s := sl.node up (b := .even) sr hc hn (by simp [Balance.toInt]; omega)
    exact s.shrinks (f := true) (fun _ _ _ _ c => c.pure _) rfl (by simp; omega)
  case even =>
    have s := sl.node up (b := .left) sr hc hn (by simp [Balance.toInt]; omega)
    exact s.shrinks (f := false) (fun _ _ _ _ c => c.pure _) rfl (by simp; omega)
  case left =>
    obtain rfl : hl = hr + 2 := by omega
    have hm : max (hr + 2) (hr + 1) = hr + 2 := by omega
    rw [hm]
    exact (rotateRightM_grows sl sr hc hn hf).shrinks

end Rotate

section

variable {α : Type} {a b la lb : List α} {x y : α}

-- A line of a node lies in its left subtree, in the node itself or in its right subtree.
theorem append_cons_cases (he : a ++ x :: b = la ++ y :: lb) :
    (∃ c, la = a ++ x :: c ∧ b = c ++ y :: lb) ∨ (a = la ∧ x = y ∧ b = lb) ∨
      ∃ c, a = la ++ y :: c ∧ lb = c ++ x :: b := by
  rcases List.append_eq_append_iff.mp he with ⟨c, h₁, h₂⟩ | ⟨c, h₁, h₂⟩
  all_goals cases c <;> simp_all

-- A place between two lines of a node lies before or after the line of the node itself.
theorem append_cases (he : a ++ b = la ++ y :: lb) :
    (∃ c, la = a ++ c ∧ b = c ++ y :: lb) ∨ ∃ c, a = la ++ y :: c ∧ lb = c ++ b := by
  rcases List.append_eq_append_iff.mp he with ⟨c, h₁, h₂⟩ | ⟨c, h₁, h₂⟩
  case inl => exact .inl ⟨c, h₁, h₂⟩
  case inr => cases c <;> simp_all

theorem length_append_cons : (a ++ x :: b).length = a.length + 1 + b.length := by
  simp
  omega

end

section Reshape

variable {delta : Int} {m : Nat}

theorem setNewline?_shape (newline : Option Newline) (s : t.Shape up (a ++ x :: b) h) :
    ∃ t', t.setNewline? a.length newline = some t' ∧
      t'.Shape up (a ++ x.withNewline newline :: b) h := by
  induction t generalizing up a b h
  case nil => exact absurd s.cells (by simp [cells])
  case node up l c n y bal r hil hir =>
    have ⟨la, lb, hl, hr, sl, sr, he, hh, hc, hn, hb, hp⟩ := s.node_inv
    subst hp hh hn
    rcases append_cons_cases he with ⟨d, rfl, rfl⟩ | ⟨rfl, rfl, rfl⟩ | ⟨d, rfl, rfl⟩
    · have ⟨l', hl', sl'⟩ := hil sl
      have s' := sl'.node up (c := c) sr (by simpa using hc) rfl hb
      refine ⟨_, ?_, by simpa using s'⟩
      simp [setNewline?, hl']
    · have s' := sl.node up (x := x.withNewline newline) sr hc rfl hb
      refine ⟨_, ?_, s'⟩
      simp [setNewline?]
    · have ⟨r', hr', sr'⟩ := hir sr
      have s' := sl.node up sr' hc rfl hb
      refine ⟨_, ?_, by simpa using s'⟩
      rw [setNewline?, length_append_cons, if_neg (by omega), if_neg (by omega),
        Nat.add_sub_cancel_left, hr']
      rfl

theorem resizeM_shape (s : t.Shape up (a ++ x :: b) h) (hm : (m : Int) = x.length + delta)
    (hlo : -(limit / 2 : Nat) ≤ delta) (hhi : delta < (limit / 2 : Nat))
    (hf : Cell.totalLength (a ++ x.withLength m :: b) < limit) :
    ∃ t', Yields limit (fun _ => t.resizeM a.length delta) t' ∧
      t'.Shape up (a ++ x.withLength m :: b) h := by
  induction t generalizing up a b h
  case nil => exact absurd s.cells (by simp [cells])
  case node up l c n y bal r hil hir =>
    obtain ⟨la, lb, hl, hr, sl, sr, he, hh, hc, hn, hb, hp⟩ := s.node_inv
    subst hp hh hn
    rcases append_cons_cases he with ⟨d, rfl, rfl⟩ | ⟨rfl, rfl, rfl⟩ | ⟨d, rfl, rfl⟩
    · simp at hf hc
      obtain ⟨l', gl, sl'⟩ := hil sl (by simp; omega)
      have s' := sl'.node up (n := (a ++ x :: d).length) sr rfl (by simp) hb
      rw [List.append_assoc, List.cons_append] at s'
      refine ⟨_, fun μ _ _ _ k => ?_, s'⟩
      beta_reduce
      rw [resizeM, if_pos (by simp)]
      exact k.bind (gl μ k) <| k.bind (k.shift hlo hhi (by simp; omega) (by simp; omega)) <|
        k.pure _
    · have s' := sl.node up (x := x.withLength m) sr hc rfl hb
      refine ⟨_, fun μ _ _ _ k => ?_, s'⟩
      simp at hf
      beta_reduce
      rw [resizeM, if_neg (by simp), if_pos rfl]
      exact k.bind (k.shift hlo hhi hm (by omega)) <| k.pure _
    · simp at hf
      obtain ⟨r', gr, sr'⟩ := hir sr (by simp; omega)
      have s' := sl.node up sr' hc rfl hb
      refine ⟨_, fun μ _ _ _ k => ?_, by simpa using s'⟩
      beta_reduce
      rw [resizeM, length_append_cons, if_neg (by omega), if_neg (by omega),
        Nat.add_sub_cancel_left]
      exact k.bind (gr μ k) <| k.pure _

theorem insertM_grows (new : Cell) (s : t.Shape up (a ++ b) h) (hnew : new.length < limit / 2)
    (hf : Cell.Fits limit (a ++ new :: b)) :
    Grows limit (fun _ => t.insertM up a.length new) up (a ++ new :: b) h := by
  induction t generalizing up a b h
  case nil =>
    have he : a = [] ∧ b = [] := by simpa [cells] using s.cells.symm
    have hh : h = 0 := s.height.symm
    obtain ⟨⟨rfl, rfl⟩, rfl⟩ := And.intro he hh
    have s' := Shape.nil.node up (x := new) (b := .even) Shape.nil rfl rfl rfl
    exact s'.grows (f := true) (fun _ _ _ _ c => c.pure _) rfl rfl
  case node up l c n y bal r hil hir =>
    obtain ⟨la, lb, hl, hr, sl, sr, he, hh, hc, hn, hb, hp⟩ := s.node_inv
    subst hp hh hn
    have ⟨hfc, hfn⟩ := hf
    rcases append_cases he with ⟨d, rfl, rfl⟩ | ⟨d, rfl, rfl⟩
    · simp at hfc hfn hc
      obtain ⟨l', higher, gl, sl'⟩ := hil sl ⟨by simp; omega, by simp; omega⟩
      have hc' : c + new.length = Cell.totalLength (a ++ new :: d) := by simp [hc]; omega
      have hn' : (a ++ d).length + 1 = (a ++ new :: d).length := by simp; omega
      have hf' : Cell.Fits limit ((a ++ new :: d) ++ y :: lb) := by simpa using hf
      cases higher
      case false =>
        have s' := sl'.node up sr hc' hn' hb
        refine s'.grows (f := false) (fun μ _ _ _ k => ?_) (by simp) rfl
        have hlarge := k.large
        rw [insertM, if_pos (by simp)]
        exact k.bind (gl μ k) <| k.bind (k.shift (by omega) (by omega) (by simp) (by omega)) <|
          k.bind (k.shift (by omega) (by omega) (by simp) (by simp; omega)) <| k.pure _
      case true =>
        obtain ⟨t', higher, gt, s'⟩ := raisedLeftM_grows up sl' sr hc' hn' hb hf'
        refine s'.grows (fun μ _ _ _ k => ?_) (by simp) rfl
        have hlarge := k.large
        rw [insertM, if_pos (by simp)]
        exact k.bind (gl μ k) <| k.bind (k.shift (by omega) (by omega) (by simp) (by omega)) <|
          k.bind (k.shift (by omega) (by omega) (by simp) (by simp; omega)) <| gt μ k
    · simp at hfc hfn
      obtain ⟨r', higher, gr, sr'⟩ := hir sr ⟨by simp; omega, by simp; omega⟩
      have hf' : Cell.Fits limit (la ++ y :: (d ++ new :: b)) := by simpa using hf
      have hi : ¬(la ++ y :: d).length ≤ la.length := by simp
      have hd : (la ++ y :: d).length - (la.length + 1) = d.length := by
        rw [length_append_cons, Nat.add_sub_cancel_left]
      cases higher
      case false =>
        have s' := sl.node up sr' hc rfl hb
        refine s'.grows (f := false) (fun μ _ _ _ k => ?_) (by simp) rfl
        rw [insertM, if_neg hi, hd]
        exact k.bind (gr μ k) <| k.pure _
      case true =>
        obtain ⟨t', higher, gt, s'⟩ := raisedRightM_grows up sl sr' hc rfl hb hf'
        refine s'.grows (fun μ _ _ _ k => ?_) (by simp) rfl
        rw [insertM, if_neg hi, hd]
        exact k.bind (gr μ k) <| gt μ k

-- What is left of a tree without its first line.
theorem popFirstM_shrinks (s : t.Shape up (x :: b) h) (hx : x.length ≤ limit / 2)
    (hf : Cell.Fits limit (x :: b)) :
    ∃ t' lower h', Yields limit (fun _ => t.popFirstM) (x, t', lower) ∧ t'.Shape up b h' ∧
      h = h' + lower.toNat := by
  induction t generalizing up b h
  case nil => exact absurd s.cells (by simp [cells])
  case node up l c n y bal r hil _ =>
    obtain ⟨la, lb, hl, hr, sl, sr, he, hh, hc, hn, hb, hp⟩ := s.node_inv
    subst hp hh
    cases la
    case nil =>
      obtain rfl := sl.eq_nil
      obtain ⟨rfl, rfl⟩ : x = y ∧ b = lb := by simpa using he
      exact ⟨_, true, hr, fun _ _ _ _ k => k.pure _, sr.adopt up, by simp [← sl.height, height]⟩
    case cons z la =>
      obtain ⟨rfl, rfl⟩ : x = z ∧ b = la ++ y :: lb := by simpa using he
      have ⟨hfc, hfn⟩ := hf
      simp at hfc hfn hc hn
      obtain ⟨l', lower, h', gl, sl', hh'⟩ := hil sl ⟨by simp; omega, by simp; omega⟩
      have hf' : Cell.Fits limit (la ++ y :: lb) := ⟨by simp; omega, by simp; omega⟩
      obtain ⟨l₁, c₁, n₁, x₁, b₁, r₁, rfl⟩ := sl.exists_node_of_cons
      cases lower
      case false =>
        have s' := sl'.node up sr rfl rfl (hh' ▸ hb)
        refine ⟨_, false, _, fun μ _ _ _ k => ?_, s', by simp [hh']⟩
        have hlarge := k.large
        exact k.bind (gl μ k) <| k.bind (k.shift (by omega) (by omega) (by omega) (by omega)) <|
          k.bind (k.shift (by omega) (by omega) (by omega) (by omega)) <| k.pure _
      case true =>
        subst hh'
        obtain ⟨t', lower, h'', gt, s', hh''⟩ := loweredLeftM_shrinks up sl' sr rfl rfl hb hf'
        refine ⟨t', lower, h'', fun μ _ _ _ k => ?_, s', hh''⟩
        have hlarge := k.large
        exact k.bind (gl μ k) <| k.bind (k.shift (by omega) (by omega) (by omega) (by omega)) <|
          k.bind (k.shift (by omega) (by omega) (by omega) (by omega)) <|
          k.bind (gt μ k) <| k.pure _

theorem removeRootM_shrinks (up : Option Nat) {bal : Balance} {la lb : List Cell} {c n : Nat}
    (sl : l.Shape x.slot la hl) (sr : r.Shape x.slot lb hr) (hc : c = Cell.totalLength la)
    (hn : n = la.length) (hb : (hr : Int) = hl + bal.toInt)
    (hfc : Cell.totalLength (la ++ x :: lb) ≤ limit / 2) (hfn : (la ++ x :: lb).length < limit) :
    Shrinks limit (fun _ => removeRootM up l c n bal r) up (la ++ lb) (max hl hr + 1) := by
  cases la
  case nil =>
    obtain rfl := sl.eq_nil
    have hl₀ : hl = 0 := sl.height.symm
    exact (sr.adopt up).shrinks (f := true) (fun _ _ _ _ k => k.pure _) rfl (by simp [hl₀])
  case cons y la =>
    have ⟨_, _, _, _, _, _, hl'⟩ := sl.exists_node_of_cons
    subst hl'
    cases lb
    case nil =>
      obtain rfl := sr.eq_nil
      have hr₀ : hr = 0 := sr.height.symm
      exact (sl.adopt up).shrinks (f := true) (fun _ _ _ _ k => k.pure _) (by simp) (by simp [hr₀])
    case cons z lb =>
      simp at hfc hfn
      have hf : Cell.Fits limit (z :: lb) := ⟨by simp; omega, by simp; omega⟩
      have hf' : Cell.Fits limit ((y :: la) ++ z :: lb) := ⟨by simp; omega, by simp; omega⟩
      obtain ⟨r', lower, h', gp, sr', hh'⟩ := popFirstM_shrinks sr (by omega) hf
      have ⟨_, _, _, _, _, _, hr'⟩ := sr.exists_node_of_cons
      subst hr' hh'
      cases lower
      case false =>
        have s' := (sl.adopt z.slot).node up (sr'.adopt z.slot) hc hn hb
        exact s'.shrinks (f := false) (fun μ _ _ _ k => k.bind (gp μ k) <| k.pure _) rfl rfl
      case true =>
        obtain ⟨t', lower, h'', gt, s', hh''⟩ :=
          loweredRightM_shrinks up (sl.adopt z.slot) (sr'.adopt z.slot) hc hn hb hf'
        exact s'.shrinks (fun μ _ _ _ k => k.bind (gp μ k) <| gt μ k) rfl hh''

-- The counters of the characters stay as they are, since the line is empty.
theorem removeM_shrinks (s : t.Shape up (a ++ x :: b) h) (hx : x.length = 0)
    (hfc : Cell.totalLength (a ++ x :: b) ≤ limit / 2) (hfn : (a ++ x :: b).length < limit) :
    Shrinks limit (fun _ => t.removeM a.length) up (a ++ b) h := by
  induction t generalizing up a b h
  case nil => exact absurd s.cells (by simp [cells])
  case node up l c n y bal r hil hir =>
    obtain ⟨la, lb, hl, hr, sl, sr, he, hh, hc, hn, hb, hp⟩ := s.node_inv
    subst hp hh hn
    rcases append_cons_cases he with ⟨d, rfl, rfl⟩ | ⟨rfl, rfl, rfl⟩ | ⟨d, rfl, rfl⟩
    · simp at hfc hfn
      obtain ⟨l', lower, h', gl, sl', hh'⟩ := hil sl (by simp; omega) (by simp; omega)
      have hc' : c = Cell.totalLength (a ++ d) := by simp [hc, hx]
      have hf' : Cell.Fits limit ((a ++ d) ++ y :: lb) := ⟨by simp; omega, by simp; omega⟩
      subst hh'
      cases lower
      case false =>
        have s' := sl'.node up sr hc' rfl hb
        refine s'.shrinks (f := false) (fun μ _ _ _ k => ?_) (by simp) rfl
        have hlarge := k.large
        rw [removeM, if_pos (by simp)]
        exact k.bind (gl μ k) <|
          k.bind (k.shift (by omega) (by omega) (by simp; omega) (by simp; omega)) <| k.pure _
      case true =>
        obtain ⟨t', lower, h'', gt, s', hh''⟩ := loweredLeftM_shrinks up sl' sr hc' rfl hb hf'
        refine s'.shrinks (fun μ _ _ _ k => ?_) (by simp) hh''
        have hlarge := k.large
        rw [removeM, if_pos (by simp)]
        exact k.bind (gl μ k) <|
          k.bind (k.shift (by omega) (by omega) (by simp; omega) (by simp; omega)) <| gt μ k
    · obtain ⟨t', lower, h', gt, s', hh'⟩ := removeRootM_shrinks up sl sr hc rfl hb hfc hfn
      refine s'.shrinks (fun μ _ _ _ k => ?_) rfl hh'
      rw [removeM, if_neg (by simp), if_pos rfl]
      exact gt μ k
    · simp at hfc hfn
      obtain ⟨r', lower, h', gr, sr', hh'⟩ := hir sr (by simp; omega) (by simp; omega)
      have hf' : Cell.Fits limit (la ++ y :: (d ++ b)) := ⟨by simp; omega, by simp; omega⟩
      have hlt : ¬(la ++ y :: d).length < la.length := by simp
      have hne : ¬(la ++ y :: d).length = la.length := by simp
      have hd : (la ++ y :: d).length - (la.length + 1) = d.length := by
        rw [length_append_cons, Nat.add_sub_cancel_left]
      subst hh'
      cases lower
      case false =>
        have s' := sl.node up sr' hc rfl hb
        refine s'.shrinks (f := false) (fun μ _ _ _ k => ?_) (by simp) rfl
        rw [removeM, if_neg hlt, if_neg hne, hd]
        exact k.bind (gr μ k) <| k.pure _
      case true =>
        obtain ⟨t', lower, h'', gt, s', hh''⟩ := loweredRightM_shrinks up sl sr' hc rfl hb hf'
        refine s'.shrinks (fun μ _ _ _ k => ?_) (by simp) hh''
        rw [removeM, if_neg hlt, if_neg hne, hd]
        exact k.bind (gr μ k) <| gt μ k

end Reshape

end LineTree
end Caret
