import Caret.Proofs.Line.Machine
import Caret.Proofs.Line.Run

-- Edits of an index on machine words. They give the exact index, and nothing wraps around on the
-- way, as long as the text has fewer characters than the largest signed word before and after the
-- edit. Its lines can be counted then as well, since all of them but the last have a character.
-- Only empty lines are removed, and never the last one.
namespace Caret

namespace Machine

open LineIndex Logged

variable {ix ix' : LineIndex} {cs p d q : List Char}

def replace (ix : LineIndex) (offset length : Nat) (text : String) : Logged LineIndex :=
  ix.replaceM offset length text

-- A replacement that has no result leaves the index as it is.
def apply (ix : LineIndex) : LineEdit → Logged LineIndex
  | .setText text               => return .ofText text
  | .replace offset length text => do
    let replaced ← Counters.attempt (replace ix offset length text)
    return replaced.getD ix

def run (ix : LineIndex) : List LineEdit → Logged LineIndex
  | []      => return ix
  | e :: es => do
    let ix ← apply ix e
    run ix es

-- The same computation with exact numbers has this result.
theorem replace_gives {text : String} (h : ix.Tracks (p ++ (d ++ q)))
    (hold : (p ++ (d ++ q)).length < maxSigned)
    (hnew : (p ++ (text.toList ++ q)).length < maxSigned)
    (he : ix.replace p.length d.length text = .ok ix') :
    (replace ix p.length d.length text).Gives ix' := by
  have hold' : (p ++ (d ++ q)).length < 2 ^ 64 / 2 := by unfold maxSigned at hold; omega
  have hnew' : (p ++ (text.toList ++ q)).length < 2 ^ 64 / 2 := by unfold maxSigned at hnew; omega
  obtain ⟨ix'', g, _⟩ := h.replaceM_yields hold' hnew'
  rw [LineIndex.replace, g.eq_some (by decide)] at he
  exact Except.ok.inj he ▸ g Logged exact_logged

theorem apply_gives {e : LineEdit} (h : ix.Tracks cs) (hold : cs.length < maxSigned)
    (hnew : (e.splice cs).length < maxSigned) : (apply ix e).Gives (e.apply ix).fst := by
  cases e
  case setText text => exact gives_pure _
  case replace offset length text =>
    cases hs : spliceChars? cs offset length text.toList
    case none =>
      have ho := spliceChars?_eq_none.mp hs
      rw [← h.length_eq] at ho
      obtain ⟨e, he⟩ := h.replace_none hs
      rw [apply, replace, replaceM, if_neg ho, LineEdit.apply, he]
      exact ⟨rfl, fun _ hm => absurd hm (List.not_mem_nil)⟩
    case some cs' =>
      obtain ⟨ix', hr, _⟩ := h.replace_some hs
      simp [LineEdit.splice, hs] at hnew
      obtain ⟨p, d, q, rfl, rfl, rfl, rfl⟩ := spliceChars?_eq_some.mp hs
      rw [LineEdit.apply, hr]
      exact (replace_gives h hold hnew hr).attempt.bind (gives_pure _)

theorem run_gives {es : List LineEdit} (h : ix.Tracks cs)
    (hb : ∀ es', es' <+: es → (ix.run es').length < maxSigned) : (run ix es).Gives (ix.run es) := by
  induction es generalizing ix cs
  case nil => exact gives_pure _
  case cons e es hi =>
    have h' := h.apply e
    have hold := hb [] (List.nil_prefix)
    have hnew := hb [e] (by simp)
    have g := apply_gives h (h.length_eq ▸ hold) (h'.length_eq ▸ hnew)
    exact g.bind <| hi h' fun es' hp => hb (e :: es') (by simpa using hp)

end Machine

namespace LineIndex

-- Words lead to the index that exact numbers lead to, and from there the next edit is accepted and
-- computed without a wrong step.
theorem run_replace_exact (text : Option String) (es : List LineEdit) (offset length : Nat)
    (inserted : String) (hb : ∀ es', es' <+: es → ((start text).run es').length < maxSigned)
    (ho : offset + length ≤ ((start text).run es).length)
    (hb' : ((start text).run es).length - length + inserted.length < maxSigned) :
    let ix := (start text).run es
    (Machine.run (start text) es).Gives ix ∧
    ∃ ix', ix.replace offset length inserted = .ok ix' ∧
      (Machine.replace ix offset length inserted).Gives ix' := by
  intro ix
  refine ⟨Machine.run_gives (tracks_start text) hb, ?_⟩
  have h := tracks_run text es
  have hold := hb es (List.prefix_refl es)
  rw [h.length_eq] at ho hold hb'
  have hs : spliceChars? _ offset length inserted.toList = some _ := if_pos ho
  obtain ⟨p, d, q, hc, hp, hd, _⟩ := spliceChars?_eq_some.mp hs
  rw [hc] at h hold hb'
  subst hp hd
  obtain ⟨ix', hr, _⟩ := h.replace_eq inserted
  refine ⟨ix', hr, Machine.replace_gives h hold ?_ hr⟩
  simp at hb' ⊢
  rw [String.length_toList]
  omega

-- In the wake of the inserted lines the tree is rotated.
def numbered : List LineEdit :=
  [.replace 1 0 "\n1\n2\n3\n4"]

theorem run_replace_exact_numbered :
    ((start (some "a\nb")).run numbered).length = 11 ∧
    (Machine.run (start (some "a\nb")) numbered).Gives ((start (some "a\nb")).run numbered) ∧
    (Machine.replace ((start (some "a\nb")).run numbered) 1 7 "x").Gives
      ((start (some "a\nb")).run (numbered ++ [.replace 1 7 "x"])) := by
  have hlength : ((start (some "a\nb")).run []).length = 3 := by decide +kernel
  have hlength' : ((start (some "a\nb")).run numbered).length = 11 := by decide +kernel
  have hr : ((start (some "a\nb")).run numbered).replace 1 7 "x" =
      .ok ((start (some "a\nb")).run (numbered ++ [.replace 1 7 "x"])) := by
    decide +kernel
  have hb : ∀ es', es' <+: numbered → ((start (some "a\nb")).run es').length < maxSigned := by
    intro es' hp
    rcases List.prefix_cons_iff.mp hp with rfl | ⟨_, rfl, hp'⟩
    · exact Nat.lt_of_le_of_lt (Nat.le_of_eq hlength) (by decide)
    · rw [List.prefix_nil.mp hp']
      exact Nat.lt_of_le_of_lt (Nat.le_of_eq hlength') (by decide)
  obtain ⟨hrun, ix', hr', hg⟩ := run_replace_exact (some "a\nb") numbered 1 7 "x" hb
    (by rw [hlength']; decide) (by rw [hlength']; decide)
  rw [hr] at hr'
  exact ⟨hlength', hrun, Except.ok.inj hr' ▸ hg⟩

end LineIndex
end Caret
