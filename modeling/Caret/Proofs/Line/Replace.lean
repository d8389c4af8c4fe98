import Caret.Proofs.Line.Content
import Caret.Proofs.Text.Splitting

-- An edit of an indexed text keeps the index in step with the text: the lines of the index
-- afterwards are those of the edited text.
namespace Caret

-- Characters and lines can be counted in half of the numbers.
structure Line.Modest (limit : Nat) (ls : List Line) : Prop where
  chars : totalLength ls < limit / 2
  lines : ls.length ≤ limit / 2

namespace LineIndex

open Counters

variable {ix : LineIndex} {A M Q E : List Line} {α β ε k m n limit : Nat}
  {newline first : Option Newline} {text : List Char}

-- The lines of a text in which `α` characters stand before the inserted lines `E ++ [ε]`, and the
-- line after them goes on with `m` characters.
def spliced (A E Q : List Line) (α ε m : Nat) (newline : Option Newline) : List Line :=
  A ++ (E ++ ⟨ε + m, newline⟩ :: Q).modifyHead (Line.extend α)

theorem totalLength_spliced : Line.totalLength (spliced A E Q α ε m newline) =
    Line.totalLength A + α + Line.totalLength E + ε + m + Line.totalLength Q := by
  cases E <;> simp [spliced, Line.extend] <;> omega

theorem length_spliced :
    (spliced A E Q α ε m newline).length = A.length + E.length + 1 + Q.length := by
  simp [spliced]
  omega

section

variable {μ : Type → Type} [Monad μ] [Counters μ] {number consumed : Nat}

theorem insertLinesM_none (h : Newline.next? text consumed = none) :
    (ix.insertLinesM text number consumed : μ (LineIndex × Nat × Nat)) =
      pure (ix, number, consumed) := by
  rw [insertLinesM]
  split
  case h_1     => rfl
  case h_2 h'  => cases h.symm.trans h'

theorem insertLinesM_some {found : Newline.Match} (h : Newline.next? text consumed = some found) :
    (ix.insertLinesM text number consumed : μ (LineIndex × Nat × Nat)) = (do
      let length ← sub found.stop consumed
      let ix ← ix.insertLineM number ⟨length, some found.newline⟩
      ix.insertLinesM text (number + 1) found.stop) := by
  rw [insertLinesM]
  split
  case h_1 h' => cases h.symm.trans h'
  case h_2 h' =>
    cases h.symm.trans h'
    rfl

end

-- The lines of the text from an index on, all but the last, are inserted.
theorem Holds.insertLinesM_yields {a b : List Line} (h : ix.Holds (a ++ b)) (hn : n ≤ text.length)
    (ht : splitLines (text.drop n) = E ++ [⟨ε, none⟩]) (hlt : text.length < limit / 2)
    (hfc : Line.totalLength (a ++ E ++ b) < limit) (hfn : (a ++ E ++ b).length < limit) :
    ∃ ix' consumed, consumed + ε = text.length ∧
      Yields limit (fun _ => ix.insertLinesM text a.length n) (ix', a.length + E.length, consumed) ∧
      ix'.Holds (a ++ E ++ b) := by
  induction E generalizing ix a n
  case nil =>
    obtain ⟨hnext, rfl⟩ := Newline.next?_eq_none_of_last ht
    refine ⟨ix, n, by omega, fun μ _ _ _ k => ?_, by simpa using h⟩
    beta_reduce
    rw [insertLinesM_none hnext]
    exact k.pure _
  case cons x E hi =>
    obtain ⟨found, hnext, rfl, hrest⟩ := Newline.exists_next? ht (by simp)
    obtain ⟨hstart, hstop⟩ := Newline.next?_bounds hnext
    have hfc₁ : Line.totalLength (a ++ ⟨found.stop - n, some found.newline⟩ :: b) < limit := by
      simp at hfc ⊢
      omega
    obtain ⟨ix₁, g₁, h₁⟩ := h.insertLineM_yields ⟨found.stop - n, some found.newline⟩
      (by simp; omega) hfc₁ (by simp at hfn ⊢; omega)
    replace h₁ : ix₁.Holds ((a ++ [⟨found.stop - n, some found.newline⟩]) ++ b) := by simpa using h₁
    obtain ⟨ix', consumed, hc, g, h'⟩ := hi h₁ hstop hrest (by simpa using hfc) (by simpa using hfn)
    refine ⟨ix', consumed, hc, fun μ _ _ _ k => ?_, by simpa using h'⟩
    have hA {x : Line} : (a ++ [x]).length = a.length + 1 := by simp
    have hE {x : Line} : a.length + 1 + E.length = a.length + (x :: E).length := by simp; omega
    beta_reduce
    rw [hA, hE] at g
    rw [insertLinesM_some hnext]
    exact k.bind (k.sub (by omega) (by omega)) <| k.bind (g₁ μ k) <| g μ k

-- A text with a newline is inserted before the last `tail` characters of a line. The line now ends
-- with the first line of the text, and the others follow it, all but the last.
theorem Holds.breakM_yields {found : Newline.Match} {tail : Nat} {rest : List Line}
    (h : ix.Holds (A ++ ⟨α + tail, first⟩ :: rest)) (hpos : 0 < found.stop)
    (hstop : found.stop ≤ text.length) (ht : splitLines (text.drop found.stop) = E ++ [⟨ε, none⟩])
    (hlt : text.length < limit / 2) (htail : tail ≤ limit / 2)
    (hfc : Line.totalLength (A ++ ⟨α + found.stop, some found.newline⟩ :: (E ++ rest)) < limit)
    (hfn : A.length + 1 + E.length + rest.length < limit) :
    ∃ ix₁ ix₂ ix₃ consumed, consumed + ε = text.length ∧
      Yields limit (fun _ => ix.adjustM A.length (found.stop - tail)) ix₁ ∧
      ix₁.setNewline? A.length (some found.newline) = some ix₂ ∧
      Yields limit (fun _ => ix₂.insertLinesM text (A.length + 1) found.stop)
        (ix₃, A.length + 1 + E.length, consumed) ∧
      ix₃.Holds (A ++ ⟨α + found.stop, some found.newline⟩ :: E ++ rest) := by
  have hk : ((α + found.stop : Nat) : Int) = (α + tail : Nat) + (found.stop - tail) := by omega
  have hf : Line.totalLength (A ++ ⟨α + found.stop, first⟩ :: rest) < limit := by
    simp at hfc ⊢
    omega
  obtain ⟨ix₁, g₁, h₁⟩ := h.adjustM_yields hk (fun _ => by omega) (by omega) (by omega) hf
  obtain ⟨ix₂, hix₂, h₂⟩ := h₁.setNewline?_eq (some found.newline)
  replace h₂ : ix₂.Holds ((A ++ [⟨α + found.stop, some found.newline⟩]) ++ rest) := by
    simpa using h₂
  obtain ⟨ix₃, consumed, hc, g₃, h₃⟩ := h₂.insertLinesM_yields hstop ht hlt (by simpa using hfc)
    (by simp; omega)
  have hA {x : Line} : (A ++ [x]).length = A.length + 1 := by simp
  rw [hA] at g₃
  exact ⟨ix₁, ix₂, ix₃, consumed, hc, g₁, hix₂, g₃, by simpa using h₃⟩

theorem Holds.replaceWithinM_yields (h : ix.Holds (A ++ ⟨α + n + m, newline⟩ :: Q))
    (hm : newline.isSome → 0 < m) (ht : splitLines text = E ++ [⟨ε, none⟩])
    (hold : Line.Modest limit (A ++ ⟨α + n + m, newline⟩ :: Q))
    (hnew : Line.Modest limit (spliced A E Q α ε m newline)) (slot : Nat) :
    let here : Located := ⟨⟨slot, α + n + m, newline⟩, A.length, Line.totalLength A⟩
    ∃ ix', Yields limit (fun _ => ix.replaceWithinM here (n + m) n text) ix' ∧
      ix'.Holds (spliced A E Q α ε m newline) := by
  intro here
  have hl := totalLength_splitLines text
  rw [ht] at hl
  rw [← text.drop_zero] at ht
  obtain ⟨hoc, hon⟩ := hold
  obtain ⟨hnc, hnn⟩ := hnew
  rw [totalLength_spliced] at hnc
  rw [length_spliced] at hnn
  simp at hl hoc hon
  cases E
  case nil =>
    obtain ⟨hnext, _⟩ := Newline.next?_eq_none_of_last ht
    simp at hl hnc
    have hk : ((α + ε + m : Nat) : Int) = (α + n + m : Nat) + (text.length - n) := by omega
    have hf : Line.totalLength (A ++ ⟨α + ε + m, newline⟩ :: Q) < limit := by simp; omega
    obtain ⟨ix', g, h'⟩ := h.adjustM_yields hk (fun hn => by have := hm hn; omega) (by omega)
      (by omega) hf
    refine ⟨ix', fun μ _ _ _ k => ?_, by simpa [spliced, Line.extend, Nat.add_assoc] using h'⟩
    beta_reduce
    rw [replaceWithinM, hnext]
    exact g μ k
  case cons x E =>
    obtain ⟨found, hnext, hx, hrest⟩ := Newline.exists_next? ht (by simp)
    obtain ⟨hstart, hstop⟩ := Newline.next?_bounds hnext
    rw [Nat.sub_zero] at hx
    subst hx
    simp at hl hnc hnn
    rw [Nat.add_assoc] at h
    have hlt : text.length < limit / 2 := by omega
    obtain ⟨ix₁, ix₂, ix₃, consumed, hc, g₁, hix₂, g₃, h₃⟩ := h.breakM_yields hstart hstop hrest
      hlt (by omega) (by simp; omega) (by omega)
    have hf : Line.totalLength (A ++ ⟨α + found.stop, some found.newline⟩ :: E ++
        ⟨m + ε, newline⟩ :: Q) < limit := by
      simp
      omega
    obtain ⟨ix', g₄, h'⟩ := h₃.insertLineM_yields ⟨m + ε, newline⟩ (by simp; omega) hf
      (by simp; omega)
    rw [LineTree.length_append_cons] at g₄
    refine ⟨ix', fun μ _ _ _ k => ?_, by simpa [spliced, Line.extend, Nat.add_comm] using h'⟩
    beta_reduce
    rw [replaceWithinM, hnext]
    exact k.bind (k.sub (k := m) (by omega) (by omega)) <| k.bind (g₁ μ k) <|
      k.bind (k.ofOption hix₂) <|
      k.bind (g₃ μ k) <| k.bind (k.sub (by omega) (by omega)) <| g₄ μ k

theorem Holds.replaceAcrossM_yields
    (h : ix.Holds (A ++ ⟨α + k, first⟩ :: (M ++ ⟨β + m, newline⟩ :: Q))) (hf : first.isSome)
    (hM : ∀ l ∈ M, l.Closed) (hm : newline.isSome → 0 < m)
    (hQ : Line.EndOpen (⟨β + m, newline⟩ :: Q)) (ht : splitLines text = E ++ [⟨ε, none⟩])
    (hold : Line.Modest limit (A ++ ⟨α + k, first⟩ :: (M ++ ⟨β + m, newline⟩ :: Q)))
    (hnew : Line.Modest limit (spliced A E Q α ε m newline)) :
    ∃ ix', Yields limit (fun _ => ix.replaceAcrossM A.length (A.length + 1 + M.length) k
        (k + Line.totalLength M + β) text) ix' ∧
      ix'.Holds (spliced A E Q α ε m newline) := by
  have hl := totalLength_splitLines text
  rw [ht] at hl
  rw [← text.drop_zero] at ht
  obtain ⟨hoc, hon⟩ := hold
  obtain ⟨hnc, hnn⟩ := hnew
  rw [totalLength_spliced] at hnc
  rw [length_spliced] at hnn
  simp at hl hoc hon
  have h₀ : ix.Holds ((A ++ [⟨α + k, first⟩]) ++ M ++ ⟨β + m, newline⟩ :: Q) := by simpa using h
  have hf₀ : Line.totalLength ((A ++ [⟨α + k, first⟩]) ++ M ++ ⟨β + m, newline⟩ :: Q) ≤
      limit / 2 := by
    simp
    omega
  obtain ⟨ix₁, g₁, h₁⟩ := h₀.removeLinesM_yields (fun l hl => (hM l hl).isSome) hQ (k + β) hf₀
    (by simp; omega) (by omega)
  have hd : A.length + 1 + M.length - A.length - 1 = M.length := by omega
  have hk : Line.totalLength M + (k + β) = k + Line.totalLength M + β := by omega
  have hA {x : Line} : (A ++ [x]).length = A.length + 1 := by simp
  rw [hA, hk, ← hd] at g₁
  replace h₁ : ix₁.Holds (A ++ ⟨α + k, first⟩ :: ⟨β + m, newline⟩ :: Q) := by simpa using h₁
  cases E
  case nil =>
    obtain ⟨hnext, _⟩ := Newline.next?_eq_none_of_last ht
    simp at hl hnc
    have hj : ((α + (ε + m) : Nat) : Int) =
        (α + k : Nat) + (β + m : Nat) + (text.length - (k + β : Nat)) := by
      omega
    have hf₁ : Line.totalLength (A ++ ⟨α + k, first⟩ :: ⟨β + m, newline⟩ :: Q) ≤ limit / 2 := by
      simp
      omega
    obtain ⟨ix', g, h'⟩ := h₁.joinM_yields hf hQ hf₁ (by simp; omega) hj
      (fun hn => by have := hm hn; omega) (by omega) (by omega) (by simp; omega)
    refine ⟨ix', fun μ _ _ _ k => ?_, by simpa [spliced, Line.extend] using h'⟩
    refine k.bind (g₁ μ k) ?_
    simp only [hnext]
    exact g μ k
  case cons x E =>
    obtain ⟨found, hnext, hx, hrest⟩ := Newline.exists_next? ht (by simp)
    obtain ⟨hstart, hstop⟩ := Newline.next?_bounds hnext
    rw [Nat.sub_zero] at hx
    subst hx
    simp at hl hnc hnn
    have hlt : text.length < limit / 2 := by omega
    obtain ⟨ix₂, ix₃, ix₄, consumed, hc, g₂, hix₃, g₄, h₄⟩ := h₁.breakM_yields hstart hstop hrest
      hlt (by omega) (by simp; omega) (by simp; omega)
    have hj : ((ε + m : Nat) : Int) = (β + m : Nat) + (text.length - consumed - β) := by omega
    have hf₂ : Line.totalLength (A ++ ⟨α + found.stop, some found.newline⟩ :: E ++
        ⟨ε + m, newline⟩ :: Q) < limit := by
      simp
      omega
    obtain ⟨ix', g₅, h'⟩ := h₄.adjustM_yields hj (fun hn => by have := hm hn; omega) (by omega)
      (by omega) hf₂
    rw [LineTree.length_append_cons] at g₅
    refine ⟨ix', fun μ _ _ _ c => ?_, by simpa [spliced, Line.extend] using h'⟩
    refine c.bind (g₁ μ c) ?_
    simp only [hnext]
    exact c.bind (g₂ μ c) <| c.bind (c.ofOption hix₃) <| c.bind (c.sub (by omega) (by omega)) <|
      c.bind (g₄ μ c) <| g₅ μ c

-- What an edit needs to know of the text after it: how the line goes on that it ends in.
theorem exists_rest (cs : List Char) :
    ∃ m newline Q, splitLines cs = ⟨m, newline⟩ :: Q ∧ (newline.isSome → 0 < m) ∧
      (m = 0 → Q = []) := by
  have ⟨a, n, ha, hc⟩ := exists_splitLines cs
  cases a
  case nil => exact ⟨n, none, [], ha, by simp, by simp⟩
  case cons x a =>
    have hp := (hc x (by simp)).pos
    refine ⟨x.length, x.newline, a ++ [⟨n, none⟩], ?_, fun _ => hp, fun hm => by omega⟩
    exact ha

-- How the replacement of `d` by `e` between `p` and `q` cuts lines. It lies behind the lines `A`
-- and `α` characters; after it `m` characters are left of the line that it ends in, and `Q`.
structure Cut (p d q e : List Char) (A E Q : List Line) (α ε m : Nat) (newline : Option Newline) :
    Prop where
  start    : p.length = Line.totalLength A + α
  inserted : splitLines e = E ++ [⟨ε, none⟩]
  pos      : newline.isSome → 0 < m
  last     : m = 0 → Q = []
  new      : splitLines (p ++ (e ++ q)) = spliced A E Q α ε m newline
  -- The edit lies in one line just if no line ends in the characters that it removes.
  old      : splitLines (p ++ (d ++ q)) = A ++ ⟨α + d.length + m, newline⟩ :: Q ∨
    ∃ (x : Line) (M : List Line) (β : Nat), x.Closed ∧ (∀ l ∈ M, l.Closed) ∧
      d.length = x.length + Line.totalLength M + β ∧
      splitLines (p ++ (d ++ q)) = A ++ ⟨α + x.length, x.newline⟩ :: (M ++ ⟨β + m, newline⟩ :: Q)

theorem exists_cut {p d q e : List Char} (hpd : Apart p (d ++ q)) (hdq : Apart d q)
    (hpe : Apart p (e ++ q)) (heq : Apart e q) :
    ∃ A E Q α ε m newline, Cut p d q e A E Q α ε m newline := by
  obtain ⟨A, α, hA, _⟩ := exists_splitLines p
  obtain ⟨D, β, hD, hDc⟩ := exists_splitLines d
  obtain ⟨E, ε, hE, _⟩ := exists_splitLines e
  obtain ⟨m, newline, Q, hQ, hm, hz⟩ := exists_rest q
  have hlp := totalLength_splitLines p
  have hld := totalLength_splitLines d
  simp [hA] at hlp
  simp [hD] at hld
  refine ⟨A, E, Q, α, ε, m, newline, hlp.symm, hE, hm, hz, ?_, ?_⟩
  · rw [splitLines_append hpe hA, splitLines_append heq hE, hQ]
    rfl
  · rw [splitLines_append hpd hA, splitLines_append hdq hD, hQ]
    cases D
    case nil =>
      simp at hld
      simp [Line.extend, hld, Nat.add_assoc]
    case cons x M =>
      obtain ⟨hx, hM⟩ := List.forall_mem_cons.mp hDc
      simp at hld
      exact .inr ⟨x, M, β, hx, hM, by omega, by simp [Line.extend]⟩

-- The lines that the replacement of `n` characters from `o` on starts and ends in. The line is not
-- looked up again if it is seen to go on behind the edit.
structure Finds (limit : Nat) (ix : LineIndex) (o n : Nat) (here last : Located) (tail : Nat) :
    Prop where
  first : Yields limit (fun _ => ix.tree.lineAtM o) here
  last  : Yields limit (fun _ => ix.lineFromM here (o + n)) last
  tail  : here.stop = tail + o
  fits  : here.stop < limit

section

variable {o tail : Nat} {here last : Located} {ix' : LineIndex}

theorem Finds.replaceWithinM_yields (f : Finds limit ix o n here last tail)
    (hn : here.number = last.number)
    (g : Yields limit (fun _ => ix.replaceWithinM here tail n text) ix') :
    Yields limit (fun _ => ix.replaceCharsM o n text) ix' := by
  intro μ _ _ _ k
  refine k.bind (f.first μ k) <| k.bind (f.last μ k) <| k.bind (k.sub f.tail f.fits) ?_
  rw [if_pos hn]
  exact g μ k

theorem Finds.replaceAcrossM_yields (f : Finds limit ix o n here last tail)
    (hn : here.number ≠ last.number)
    (g : Yields limit (fun _ => ix.replaceAcrossM here.number last.number tail n text) ix') :
    Yields limit (fun _ => ix.replaceCharsM o n text) ix' := by
  intro μ _ _ _ k
  refine k.bind (f.first μ k) <| k.bind (f.last μ k) <| k.bind (k.sub f.tail f.fits) ?_
  rw [if_neg hn]
  exact g μ k

end

theorem lineFromM_yields {o : Nat} {here last : Located}
    (g : Yields limit (fun _ => ix.tree.lineAtM o) last) :
    Yields limit (fun _ => ix.lineFromM here o) (if o < here.stop then here else last) := by
  intro μ _ _ _ k
  beta_reduce
  rw [lineFromM]
  split
  case isTrue  => exact k.pure _
  case isFalse => exact g μ k

-- An edit that lies in one line finds this line at both of its ends.
theorem Holds.finds_within {o : Nat} (h : ix.Holds (A ++ ⟨α + n + m, newline⟩ :: Q))
    (hz : m = 0 → Q = []) (ho : o = Line.totalLength A + α)
    (hlt : Line.totalLength A + (α + n + m) < limit) :
    ∃ slot last, last.number = A.length ∧
      Finds limit ix o n ⟨⟨slot, α + n + m, newline⟩, A.length, Line.totalLength A⟩ last
        (n + m) := by
  have hc {i : Nat} (hi : i ≤ n) : Line.Covers A ⟨α + n + m, newline⟩ Q (o + i) := by
    refine ⟨by omega, ?_⟩
    by_cases hm₀ : m = 0
    case neg => exact .inl (by simp; omega)
    case pos =>
      by_cases hin : i = n
      case pos => exact .inr ⟨by simp; omega, hz hm₀⟩
      case neg => exact .inl (by simp; omega)
  obtain ⟨slot, hfirst⟩ := h.lineAtM_yields (hc (Nat.zero_le _))
  obtain ⟨slot', hlast⟩ := h.lineAtM_yields (hc (Nat.le_refl _))
  refine ⟨slot, _, ?_, hfirst limit (by omega), lineFromM_yields (hlast limit (by omega)), ?_, hlt⟩
  · split <;> rfl
  · simp only [Located.stop]
    omega

-- An edit that removes the last `k` characters of a line, the lines `M` and then `β` characters
-- ends in the line behind `M`.
theorem Holds.finds_across {o : Nat}
    (h : ix.Holds (A ++ ⟨α + k, first⟩ :: (M ++ ⟨β + m, newline⟩ :: Q))) (hz : m = 0 → Q = [])
    (hk : 0 < k) (ho : o = Line.totalLength A + α)
    (hlt : o + (k + Line.totalLength M + β) < limit) :
    ∃ here last, here.number = A.length ∧ last.number = A.length + 1 + M.length ∧
      Finds limit ix o (k + Line.totalLength M + β) here last k := by
  have h' : ix.Holds ((A ++ ⟨α + k, first⟩ :: M) ++ ⟨β + m, newline⟩ :: Q) := by simpa using h
  obtain ⟨slot, hfirst⟩ := h.lineAtM_yields (o := o) ⟨by omega, .inl (by simp; omega)⟩
  obtain ⟨slot', hlast⟩ := h'.lineAtM_yields (o := o + (k + Line.totalLength M + β)) (by
    refine ⟨by simp; omega, ?_⟩
    by_cases hm₀ : m = 0
    case neg => exact .inl (by simp; omega)
    case pos => exact .inr ⟨by simp; omega, hz hm₀⟩)
  have hbehind : ¬o + (k + Line.totalLength M + β) < Line.totalLength A + (α + k) := by omega
  refine ⟨_, _, rfl, ?_, hfirst limit (by omega), lineFromM_yields (hlast limit hlt), ?_, ?_⟩
  · rw [Located.stop, if_neg hbehind, LineTree.length_append_cons]
  · simp only [Located.stop]
    omega
  · simp only [Located.stop]
    omega

theorem endOpen_splitLines (cs : List Char) : Line.EndOpen (splitLines cs) := by
  obtain ⟨a, n, ha, _⟩ := exists_splitLines cs
  simp [Line.EndOpen, ha]

theorem length_le_totalLength_of_closed {ls : List Line} (h : ∀ l ∈ ls, l.Closed) :
    ls.length ≤ Line.totalLength ls := by
  induction ls
  case nil => simp
  case cons l ls hi =>
    obtain ⟨hl, hls⟩ := List.forall_mem_cons.mp h
    have hpos := hl.pos
    have hle := hi hls
    simp
    omega

-- All lines but the last have a character.
theorem modest_splitLines {cs : List Char} (h : cs.length < limit / 2) :
    Line.Modest limit (splitLines cs) := by
  have hl := totalLength_splitLines cs
  obtain ⟨a, n, ha, hc⟩ := exists_splitLines cs
  have hle := length_le_totalLength_of_closed hc
  refine ⟨by omega, ?_⟩
  rw [ha] at hl ⊢
  simp at hl ⊢
  omega

theorem Holds.replaceCharsM_yields {p d q e : List Char}
    (h : ix.Holds (splitLines (p ++ (d ++ q)))) (hpd : Apart p (d ++ q)) (hdq : Apart d q)
    (hpe : Apart p (e ++ q)) (heq : Apart e q) (hold : (p ++ (d ++ q)).length < limit / 2)
    (hnew : (p ++ (e ++ q)).length < limit / 2) :
    ∃ ix', Yields limit (fun _ => ix.replaceCharsM p.length d.length e) ix' ∧
      ix'.Holds (splitLines (p ++ (e ++ q))) := by
  obtain ⟨A, E, Q, α, ε, m, newline, c⟩ := exists_cut hpd hdq hpe heq
  have hmold := modest_splitLines hold
  have hmnew := c.new ▸ modest_splitLines hnew
  have hopen := endOpen_splitLines (p ++ (d ++ q))
  have hstart := c.start
  simp at hold
  rw [c.new]
  rcases c.old with hc | ⟨x, M, β, hx, hM, hd, hc⟩ <;> rw [hc] at h hmold hopen
  · have hlt := hmold.chars
    simp at hlt
    have hlt' : Line.totalLength A + (α + d.length + m) < limit := by omega
    obtain ⟨slot, last, hnumber, f⟩ := h.finds_within c.last c.start hlt'
    obtain ⟨ix', g, h'⟩ := h.replaceWithinM_yields c.pos c.inserted hmold hmnew slot
    exact ⟨ix', f.replaceWithinM_yields hnumber.symm g, h'⟩
  · have hlt : p.length + (x.length + Line.totalLength M + β) < limit := by omega
    obtain ⟨here, last, hnumber, hnumber', f⟩ := h.finds_across c.last hx.pos c.start hlt
    have hQ : Line.EndOpen (⟨β + m, newline⟩ :: Q) :=
      .of_append (A ++ ⟨α + x.length, x.newline⟩ :: M) (by simpa using hopen) (by simp)
    obtain ⟨ix', g, h'⟩ := h.replaceAcrossM_yields hx.isSome hM c.pos hQ c.inserted hmold hmnew
    rw [← hnumber'] at g
    rw [hd]
    exact ⟨ix', f.replaceAcrossM_yields (by omega) (hnumber ▸ g), h'⟩

-- Where a line ends, its newline has the character of the text.
theorem filter_eq_of_covers {cs u v w : List Char} {a b : List Line} {x : Line} {o : Nat}
    (he : splitLines cs = a ++ x :: b) (hc : Line.Covers a x b o) (hw : x.Within u v w cs)
    (hu : u.length = Line.totalLength a) :
    cs[o]?.filter Newline.isChar =
      if o - Line.totalLength a < v.length then none
      else x.ending[o - Line.totalLength a - v.length]? := by
  have hl := totalLength_splitLines cs
  obtain ⟨hlo, hhi⟩ := hc
  obtain ⟨i, rfl⟩ := Nat.exists_eq_add_of_le (hu ▸ hlo)
  have hsub : u.length + i - Line.totalLength a = i := by omega
  rw [hsub]
  by_cases hlt : i < x.length
  case pos => exact hw.filter_getElem?_eq hlt
  case neg =>
    -- Behind its last line the text has ended.
    obtain ⟨hi, rfl⟩ : u.length + i = Line.totalLength a + x.length ∧ b = [] :=
      hhi.resolve_left (by omega)
    have hcs : cs.length ≤ u.length + i := by
      rw [← hl, he, hi]
      simp
    have hending : x.ending = [] := by simp [Line.ending, newline_eq_none_of_last he]
    simp [List.getElem?_eq_none hcs, hending]

theorem Holds.newlineCharAtM_yields {cs : List Char} {o : Nat} (h : ix.Holds (splitLines cs))
    (ho : o ≤ cs.length) (hlt : cs.length < limit) :
    Yields limit (fun _ => ix.tree.newlineCharAtM o) (cs[o]?.filter Newline.isChar) := by
  have hl := totalLength_splitLines cs
  obtain ⟨a, x, b, he, hc⟩ := Line.exists_covers (splitLines_ne_nil cs) (hl ▸ ho)
  obtain ⟨u, v, w, hw, hu⟩ := exists_within he
  obtain ⟨slot, g⟩ := (he ▸ h).lineAtM_yields hc
  have hstart := hc.start
  rw [filter_eq_of_covers he hc hw hu]
  rw [he] at hl
  simp at hl
  intro μ _ _ _ k
  refine k.bind (k.attempt (g limit (by omega) μ k)) ?_
  have hx := hw.length
  cases hn : x.newline
  case none =>
    simp only [hn, Line.ending, Option.map_none, Option.getD_none, List.getElem?_nil, ite_self]
    exact k.pure _
  case some newline =>
    simp only [hn, Line.ending, Option.map_some, Option.getD_some] at hx ⊢
    refine k.bind (k.sub (k := o - Line.totalLength a) (by omega) (by omega)) <|
      k.bind (k.sub (k := v.length) hx (by omega)) ?_
    simp only [← Nat.not_lt, ite_not]
    exact k.pure _

-- The index is that of the given text.
def Tracks (ix : LineIndex) (cs : List Char) : Prop :=
  ix.Holds (splitLines cs)

variable {ix : LineIndex} {cs p d q : List Char}

theorem tracks_ofText (text : String) : (ofText text).Tracks text.toList :=
  ofLines_holds _

theorem tracks_empty : empty.Tracks [] :=
  ofLines_holds _

theorem Tracks.length_eq (h : ix.Tracks cs) : ix.length = cs.length :=
  (Holds.charCount_eq h).trans (totalLength_splitLines cs)

-- A carriage return at the end of a text is set apart from what follows.
theorem exists_left (p : List Char) :
    ∃ p' l, p = p' ++ l ∧ l = (if p.getLast? = some '\r' then ['\r'] else []) ∧
      ∀ cs, Apart p' (l ++ cs) := by
  split
  case isTrue hp =>
    have ⟨p', he⟩ := List.getLast?_eq_some_iff.mp hp
    exact ⟨p', ['\r'], he, rfl, fun cs hc => by simp at hc⟩
  case isFalse hp => exact ⟨p, [], by simp, rfl, fun cs hc => hp hc.left⟩

-- A line feed at the start of a text is set apart from what comes before.
theorem exists_right (q : List Char) :
    ∃ q' r, q = r ++ q' ∧ r = (if q.head? = some '\n' then ['\n'] else []) ∧
      ∀ cs, Apart (cs ++ r) q' := by
  split
  case isTrue hq =>
    have ⟨q', he⟩ := List.head?_eq_some_iff.mp hq
    exact ⟨q', ['\n'], he, rfl, fun cs hc => by simp at hc⟩
  case isFalse hq => exact ⟨q, [], by simp, rfl, fun cs hc => hq hc.right⟩

theorem filter_isChar_eq_some {c : Char} {o : Option Char} (hc : Newline.isChar c) :
    o.filter Newline.isChar = some c ↔ o = some c := by
  rw [Option.filter_eq_some_iff]
  exact and_iff_left hc

section Widen

variable {p' l r : List Char}

theorem Tracks.widenLeftM_yields (stop : Nat) (text : List Char) (h : ix.Tracks (p ++ cs))
    (hlt : (p ++ cs).length < limit) (hp : p = p' ++ l)
    (hl : l = if p.getLast? = some '\r' then ['\r'] else []) :
    Yields limit (fun _ => ix.widenLeftM ⟨p.length, stop, text⟩) ⟨p'.length, stop, l ++ text⟩ := by
  have hpl := congrArg List.length hp
  rw [List.length_append] at hlt hpl
  intro μ _ _ _ k
  beta_reduce
  rw [widenLeftM]
  split
  case isFalse hpos =>
    obtain rfl : p = [] := List.eq_nil_of_length_eq_zero (by simpa using hpos)
    obtain ⟨rfl, rfl⟩ := List.append_eq_nil_iff.mp hp.symm
    exact k.pure _
  case isTrue hpos =>
    have hc : (p ++ cs)[p.length - 1]?.filter Newline.isChar = some '\r' ↔
        p.getLast? = some '\r' := by
      rw [filter_isChar_eq_some (by decide), List.getElem?_append_left (by simp at hpos; omega),
        List.getLast?_eq_getElem?]
    refine k.bind (k.sub (k := p.length - 1) (by simp at hpos ⊢; omega) (by simp; omega)) <|
      k.bind (Holds.newlineCharAtM_yields h (by simp; omega) (by simp; omega) μ k) ?_
    simp only [hc]
    split at hl <;> subst hl
    case isTrue hcr =>
      have hstart : p.length - 1 = p'.length := by simp at hpl; omega
      rw [if_pos hcr, hstart]
      exact k.pure _
    case isFalse hcr =>
      obtain rfl : p' = p := by simpa using hp.symm
      rw [if_neg hcr]
      exact k.pure _

theorem Tracks.widenRightM_yields (start : Nat) (text : List Char) (h : ix.Tracks (p ++ q))
    (hlt : (p ++ q).length < limit) (hr : r = if q.head? = some '\n' then ['\n'] else []) :
    Yields limit (fun _ => ix.widenRightM ⟨start, p.length, text⟩)
      ⟨start, p.length + r.length, text ++ r⟩ := by
  have hc : (p ++ q)[p.length]?.filter Newline.isChar = some '\n' ↔ q.head? = some '\n' := by
    rw [filter_isChar_eq_some (by decide), List.getElem?_append_right (Nat.le_refl _),
      Nat.sub_self, List.head?_eq_getElem?]
  intro μ _ _ _ k
  refine k.bind (Holds.newlineCharAtM_yields h (by simp) hlt μ k) ?_
  simp only [hc]
  split at hr <;> subst hr
  case isTrue hlf =>
    rw [if_pos hlf]
    exact k.pure _
  case isFalse hlf =>
    rw [if_neg hlf, List.append_nil]
    exact k.pure _

end Widen

theorem Tracks.replaceM_yields {text : String} (h : ix.Tracks (p ++ (d ++ q)))
    (hold : (p ++ (d ++ q)).length < limit / 2)
    (hnew : (p ++ (text.toList ++ q)).length < limit / 2) :
    ∃ ix', Yields limit (fun _ => ix.replaceM p.length d.length text) ix' ∧
      ix'.Tracks (p ++ (text.toList ++ q)) := by
  obtain ⟨p', l, hp, hl, hleft⟩ := exists_left p
  obtain ⟨q', r, hq, hr, hright⟩ := exists_right q
  have hlt : (p ++ (d ++ q)).length < limit := by omega
  have hlen : ix.length = p.length + (d.length + q.length) := by simp [h.length_eq]
  have h' : ix.Holds (splitLines (p' ++ ((l ++ (d ++ r)) ++ q'))) := by
    simpa [Tracks, hp, hq] using h
  obtain ⟨ix', g, hh'⟩ := h'.replaceCharsM_yields (e := l ++ (text.toList ++ r))
    (by simpa using hleft _) (by simpa using hright (l ++ d))
    (by simpa using hleft _) (by simpa using hright (l ++ text.toList))
    (by simpa [hp, hq] using hold) (by simpa [hp, hq] using hnew)
  refine ⟨ix', fun μ _ _ _ k => ?_, by simpa [Tracks, hp, hq] using hh'⟩
  have h₁ : ix.Tracks ((p ++ d) ++ q) := by simpa using h
  have gl := h.widenLeftM_yields (p.length + d.length) text.toList hlt hp hl μ k
  have gr := h₁.widenRightM_yields p'.length (l ++ text.toList) (by simpa using hlt) hr μ k
  rw [List.length_append] at gr
  have hpl := congrArg List.length hp
  have hql := congrArg List.length hq
  simp at hlt hpl hql
  have gs : Outcome.Gives (sub (p.length + d.length + r.length) p'.length : μ Nat)
      (l ++ (d ++ r)).length :=
    k.sub (by simp; omega) (by omega)
  beta_reduce
  rw [replaceM, if_pos (by omega)]
  refine k.bind gl <| k.bind gr <| k.bind gs ?_
  rw [List.append_assoc]
  exact g μ k

theorem Tracks.replace_eq (h : ix.Tracks (p ++ (d ++ q))) (text : String) :
    ∃ ix', ix.replace p.length d.length text = .ok ix' ∧ ix'.Tracks (p ++ (text.toList ++ q)) := by
  -- Exact numbers have no limit.
  let limit := 2 * ((p ++ (d ++ q)).length + (p ++ (text.toList ++ q)).length + 2)
  have hold : (p ++ (d ++ q)).length < limit / 2 := by omega
  have hnew : (p ++ (text.toList ++ q)).length < limit / 2 := by omega
  obtain ⟨ix', g, h'⟩ := h.replaceM_yields hold hnew
  refine ⟨ix', ?_, h'⟩
  rw [replace, g.eq_some (by omega)]

end LineIndex
end Caret
