import Caret.Interval.Set
import Mathlib.Algebra.Group.Int.Defs
import Mathlib.Algebra.Group.Nat.Defs

-- Arithmetic whose results are exact as long as they fit. Insertions and unions compute nothing
-- that does not fit, so they are the same in all such arithmetic, and the checked one never fails.
namespace Caret

class LawfulArithmetic (m : Type → Type) [Monad m] [Arithmetic m] : Prop extends LawfulMonad m where
  wide_eq {n : Int} (hlo : -2 ^ 63 ≤ n) (hhi : n < 2 ^ 63) : (wide n : m Int) = pure n
  narrow_eq {n : Int} (hlo : -2 ^ 31 ≤ n) (hhi : n < 2 ^ 31) :
    (narrow n : m Int32) = pure (Int32.ofInt n)
  count_eq {n : Nat} (hhi : n < 2 ^ 64) : (count n : m Nat) = pure n

export LawfulArithmetic (wide_eq narrow_eq count_eq)

instance : LawfulArithmetic Id where
  wide_eq hlo hhi  := Int64.toInt_ofInt_of_le hlo hhi
  narrow_eq _ _    := rfl
  count_eq {n} hhi := by
    change (UInt64.ofInt n).toNat = n
    rw [UInt64.ofInt, UInt64.toNat_ofNat']
    omega

-- Checked arithmetic has no result that does not fit.
instance : Arithmetic Option where
  wide n   := if -2 ^ 63 ≤ n ∧ n < 2 ^ 63 then some n else none
  narrow n := if -2 ^ 31 ≤ n ∧ n < 2 ^ 31 then some (Int32.ofInt n) else none
  count n  := if 0 ≤ n ∧ n < 2 ^ 64 then some n.toNat else none

instance : LawfulArithmetic Option where
  wide_eq hlo hhi   := if_pos ⟨hlo, hhi⟩
  narrow_eq hlo hhi := if_pos ⟨hlo, hhi⟩
  count_eq hhi      := if_pos ⟨by omega, by omega⟩

section Search

variable {α : Type} (p : α → Bool) {xs : List α}

theorem partitionPoint_nil : partitionPoint p [] = 0 := by
  simp [partitionPoint, partitionPointM]

theorem partitionPoint_singleton (x : α) : partitionPoint p [x] = if p x then 1 else 0 := by
  simp [partitionPoint, partitionPointM]

-- Both halves of a list with at least two elements are shorter.
theorem partitionPoint_halves {x y : α} {zs : List α} (h : xs = x :: y :: zs) :
    partitionPoint p xs =
      if p (xs[xs.length / 2]?.getD x)
      then xs.length / 2 + partitionPoint p (xs.drop (xs.length / 2))
      else partitionPoint p (xs.take (xs.length - xs.length / 2)) := by
  subst h
  unfold partitionPoint
  rw [partitionPointM]
  simp only [pure_bind]
  split <;> simp_all

-- A test that needs no arithmetic of its own can be done beforehand.
theorem partitionPointM_pure {m : Type → Type} [Monad m] [LawfulMonad m] (xs : List α) :
    partitionPointM (fun x => (pure (p x) : m Bool)) xs = pure (partitionPoint p xs) := by
  induction hn : xs.length using Nat.strongRecOn generalizing xs
  case ind n hi =>
    rcases xs with _ | ⟨x, _ | ⟨y, zs⟩⟩
    · simp [partitionPointM, partitionPoint_nil]
    · simp [partitionPointM, partitionPoint_singleton]
    · simp only [List.length_cons] at hn
      have hdrop := hi (n - n / 2) (by omega) ((x :: y :: zs).drop (n / 2)) (by simp; omega)
      have htake := hi (n - n / 2) (by omega) ((x :: y :: zs).take (n - n / 2)) (by simp; omega)
      rw [partitionPointM, partitionPoint_halves p rfl]
      simp only [pure_bind, List.length_cons, hn, hdrop, htake]
      split <;> rfl

end Search

section Lawful

variable {m : Type → Type} [Monad m] [Arithmetic m] [LawfulArithmetic m]

theorem Interval.nextM_eq (i : Interval) : (i.nextM : m Int) = pure (i.stop.toInt + 1) := by
  have hlo := i.stop.le_toInt
  have hhi := i.stop.toInt_lt
  exact wide_eq (by omega) (by omega)

namespace IntervalSet

theorem absorb_nil (i : Interval) : absorb i [] = [i] :=
  rfl

theorem absorb_cons (i j : Interval) (js : List Interval) :
    absorb i (j :: js) =
      if j.start.toInt ≤ i.stop.toInt + 1
      then absorb ⟨min i.start j.start, max i.stop j.stop⟩ js
      else i :: j :: js := by
  simp only [absorb, absorbM, Interval.nextM_eq, pure_bind]
  split <;> rfl

theorem absorbM_eq (i : Interval) (js : List Interval) :
    (absorbM i js : m (List Interval)) = pure (absorb i js) := by
  induction js generalizing i
  case nil => rfl
  case cons j js hi =>
    simp only [absorbM, Interval.nextM_eq, pure_bind, absorb_cons, hi]
    split <;> rfl

variable (s t : IntervalSet) (start stop : Int32)

theorem insertRangeM_parts :
    (s.insertRangeM start stop : m IntervalSet) = pure (
      if stop < start then s else
        let n := partitionPoint (fun i => i.stop.toInt + 1 < start.toInt) s.intervals
        ⟨s.intervals.take n ++ absorb ⟨start, stop⟩ (s.intervals.drop n)⟩) := by
  simp only [insertRangeM, Interval.nextM_eq, pure_bind, partitionPointM_pure, absorbM_eq]
  split <;> rfl

theorem insertRange_parts :
    s.insertRange start stop =
      if stop < start then s else
        let n := partitionPoint (fun i => i.stop.toInt + 1 < start.toInt) s.intervals
        ⟨s.intervals.take n ++ absorb ⟨start, stop⟩ (s.intervals.drop n)⟩ :=
  insertRangeM_parts (m := Id) s start stop

theorem insertRangeM_eq :
    (s.insertRangeM start stop : m IntervalSet) = pure (s.insertRange start stop) := by
  rw [insertRangeM_parts, insertRange_parts]

theorem union_eq : s.union t = t.intervals.foldl (fun s i => s.insertRange i.start i.stop) s := by
  simp only [union, unionM, insertRangeM_eq, List.foldlM_pure]
  rfl

theorem union_cons (i : Interval) (is : List Interval) :
    s.union ⟨i :: is⟩ = (s.insertRange i.start i.stop).union ⟨is⟩ := by
  simp only [union_eq, List.foldl_cons]

theorem unionM_eq : (s.unionM t : m IntervalSet) = pure (s.union t) := by
  simp only [union_eq, unionM, insertRangeM_eq, List.foldlM_pure]

theorem insertM_eq (v : Int32) : (s.insertM v : m IntervalSet) = pure (s.insert v) :=
  insertRangeM_eq ..

theorem ofList_eq (vs : List Int32) : ofList vs = vs.foldl insert empty := by
  simp only [ofList, ofListM, insertM_eq, List.foldlM_pure]
  rfl

theorem ofListM_eq (vs : List Int32) : (ofListM vs : m IntervalSet) = pure (ofList vs) := by
  simp only [ofList_eq, ofListM, insertM_eq, List.foldlM_pure]

end IntervalSet
end Lawful
end Caret
