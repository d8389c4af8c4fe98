import Caret.Proofs.Interval.Arithmetic
import Mathlib.Tactic.ByContra

-- The members of interval sets. The search finds every member of a canonical set, and insertion
-- adds just the values of the inserted range and keeps the set canonical.
namespace Caret

section Search

variable {α : Type} {p : α → Bool} {xs ys : List α}

-- The search may halve the list at any place: what remains is again a part that passes the test
-- followed by one that fails it.
theorem partitionPoint_append (hx : ∀ x ∈ xs, p x) (hy : ∀ y ∈ ys, ¬p y) :
    partitionPoint p (xs ++ ys) = xs.length := by
  generalize hz : xs ++ ys = zs
  induction hn : zs.length using Nat.strongRecOn generalizing xs ys zs
  case ind n hi =>
    rcases zs with _ | ⟨x, _ | ⟨y, zs'⟩⟩
    · simp_all [partitionPoint_nil]
    · rcases xs with _ | ⟨_, _⟩ <;> simp_all [partitionPoint_singleton]
    · generalize hzs : x :: y :: zs' = zs at hz hn
      have hlen : 2 ≤ n := by simp [← hn, ← hzs]
      obtain ⟨z, hmid⟩ : ∃ z, zs[n / 2]? = some z := ⟨_, List.getElem?_eq_getElem (by omega)⟩
      rw [partitionPoint_halves p hzs.symm, hn, hmid, Option.getD_some]
      split
      case isTrue hp =>
        have hl : n / 2 < xs.length := by
          by_contra hl
          rw [← hz, List.getElem?_append_right (by omega)] at hmid
          exact hy _ (List.mem_of_getElem? hmid) hp
        have hd := hi (n - n / 2) (by omega) (fun x hm => hx x (List.mem_of_mem_drop hm)) hy
          (zs.drop (n / 2)) (by rw [← hz, List.drop_append_of_le_length (Nat.le_of_lt hl)])
          (by simp [hn])
        rw [hd, List.length_drop]
        omega
      case isFalse hp =>
        have hl : xs.length ≤ n / 2 := by
          by_contra hl
          rw [← hz, List.getElem?_append_left (by omega)] at hmid
          exact hp (hx _ (List.mem_of_getElem? hmid))
        have hle : xs.length ≤ n - n / 2 := by omega
        have ht : xs ++ ys.take (n - n / 2 - xs.length) = zs.take (n - n / 2) := by
          rw [← hz, List.take_append, List.take_of_length_le hle]
        exact hi (n - n / 2) (by omega) hx (fun y hm => hy y (List.mem_of_mem_take hm)) _ ht
          (by simp [hn])

end Search

namespace Interval

variable {i j : Interval} {v : Int32}

theorem mem_iff_toInt : v ∈ i ↔ i.start.toInt ≤ v.toInt ∧ v.toInt ≤ i.stop.toInt := by
  simp [mem_def, Int32.le_iff_toInt_le]

theorem mem_toList : v ∈ i.toList ↔ v ∈ i := by
  have hlo := i.start.le_toInt
  have hhi := i.stop.toInt_lt
  simp only [toList, List.mem_map, List.mem_range, mem_iff_toInt]
  constructor
  case mp =>
    rintro ⟨n, hn, rfl⟩
    rw [Int32.toInt_ofInt_of_le (by omega) (by omega)]
    omega
  case mpr =>
    intro hv
    refine ⟨(v.toInt - i.start.toInt).toNat, by omega, ?_⟩
    have he : i.start.toInt + (v.toInt - i.start.toInt).toNat = v.toInt := by omega
    rw [he, Int32.ofInt_toInt]

theorem toInt_min (a b : Int32) : (min a b).toInt = min a.toInt b.toInt := by
  change (if a ≤ b then a else b).toInt = _
  simp only [Int32.le_iff_toInt_le, Int.min_def]
  split <;> rfl

theorem toInt_max (a b : Int32) : (max a b).toInt = max a.toInt b.toInt := by
  change (if a ≤ b then b else a).toInt = _
  simp only [Int32.le_iff_toInt_le, Int.max_def]
  split <;> rfl

end Interval

namespace IntervalSet

instance : Membership Int32 IntervalSet where
  mem s v := ∃ i ∈ s.intervals, v ∈ i

variable {s t : IntervalSet} {i j : Interval} {is js : List Interval} {v start stop : Int32}

theorem mem_def : v ∈ s ↔ ∃ i ∈ s.intervals, v ∈ i :=
  Iff.rfl

theorem mem_toList : v ∈ s.toList ↔ v ∈ s := by
  simp [toList, mem_def, Interval.mem_toList]

theorem mem_append : v ∈ (⟨is ++ js⟩ : IntervalSet) ↔
    v ∈ (⟨is⟩ : IntervalSet) ∨ v ∈ (⟨js⟩ : IntervalSet) := by
  simp [mem_def, or_and_right, exists_or]

theorem isEmpty_eq_false_of_mem (h : v ∈ s) : s.isEmpty = false := by
  have ⟨i, hi, _⟩ := h
  rw [isEmpty, List.isEmpty_eq_false_iff]
  exact List.ne_nil_of_mem hi

-- What the search finds is a member, whatever the list of the intervals is.
theorem mem_of_contains (h : s.contains v) : v ∈ s := by
  have ⟨i, hi, hv⟩ := Option.any_eq_true _ _ |>.mp h
  exact ⟨i, List.mem_of_getElem? hi, of_decide_eq_true hv⟩

section Canonical

theorem canonical_cons : Canonical ⟨i :: is⟩ ↔
    i.start ≤ i.stop ∧ (∀ j ∈ is, i.stop.toInt + 1 < j.start.toInt) ∧ Canonical ⟨is⟩ where
  mp h := by
    have ⟨hi, hn⟩ := List.forall_mem_cons.mp h.nonempty
    have ⟨ha, hp⟩ := List.pairwise_cons.mp h.apart
    exact ⟨hi, ha, hn, hp⟩
  mpr := fun ⟨hi, ha, h⟩ => ⟨List.forall_mem_cons.mpr ⟨hi, h.nonempty⟩, .cons ha h.apart⟩

theorem canonical_append : Canonical ⟨is ++ js⟩ ↔
    Canonical ⟨is⟩ ∧ Canonical ⟨js⟩ ∧ ∀ i ∈ is, ∀ j ∈ js, i.stop.toInt + 1 < j.start.toInt where
  mp h := by
    have ⟨hi, hj⟩ := List.forall_mem_append.mp h.nonempty
    have ⟨pi, pj, ha⟩ := List.pairwise_append.mp h.apart
    exact ⟨⟨hi, pi⟩, ⟨hj, pj⟩, ha⟩
  mpr := fun ⟨hi, hj, ha⟩ =>
    ⟨List.forall_mem_append.mpr ⟨hi.nonempty, hj.nonempty⟩,
      List.pairwise_append.mpr ⟨hi.apart, hj.apart, ha⟩⟩

theorem Canonical.start_le (h : Canonical ⟨is⟩) (hi : i ∈ is) : i.start.toInt ≤ i.stop.toInt :=
  Int32.le_iff_toInt_le.mp (h.nonempty i hi)

theorem Canonical.contains_of_mem (h : s.Canonical) (hv : v ∈ s) : s.contains v := by
  obtain ⟨is⟩ := s
  obtain ⟨i, hi, hv⟩ := hv
  obtain ⟨a, b, rfl⟩ := List.append_of_mem hi
  have ⟨_, hb, ha⟩ := canonical_append.mp h
  have ⟨_, hib, hb⟩ := canonical_cons.mp hb
  have hiv := Interval.mem_iff_toInt.mp hv
  have hp : partitionPoint (fun k => k.stop < v) (a ++ i :: b) = a.length := by
    refine partitionPoint_append (fun k hk => ?_) (List.forall_mem_cons.mpr ⟨?_, fun k hk => ?_⟩)
    · have := ha k hk i (List.mem_cons_self ..)
      simp only [decide_eq_true_eq, Int32.lt_iff_toInt_lt]
      omega
    · simp only [decide_eq_true_eq, Int32.lt_iff_toInt_lt]
      omega
    · have := hib k hk
      have := hb.start_le hk
      simp only [decide_eq_true_eq, Int32.lt_iff_toInt_lt]
      omega
  simpa [contains, hp] using hv

theorem Canonical.contains_iff (h : s.Canonical) : s.contains v ↔ v ∈ s :=
  ⟨mem_of_contains, h.contains_of_mem⟩

-- What is inserted stands behind all that ends before it, with a gap between them.
theorem Canonical.exists_parts (h : Canonical ⟨is⟩) (start : Int32) : ∃ a b, is = a ++ b ∧
    (∀ i ∈ a, i.stop.toInt + 1 < start.toInt) ∧ ∀ i ∈ b, start.toInt ≤ i.stop.toInt + 1 := by
  induction is
  case nil => exact ⟨[], [], rfl, by simp, by simp⟩
  case cons i is hi =>
    have ⟨_, hib, h'⟩ := canonical_cons.mp h
    by_cases hs : i.stop.toInt + 1 < start.toInt
    case pos =>
      have ⟨a, b, he, ha, hb⟩ := hi h'
      exact ⟨i :: a, b, by simp [he], List.forall_mem_cons.mpr ⟨hs, ha⟩, hb⟩
    case neg =>
      refine ⟨[], i :: is, rfl, by simp, List.forall_mem_cons.mpr ⟨by omega, fun k hk => ?_⟩⟩
      have := hib k hk
      have := h'.start_le hk
      omega

-- Merging keeps an interval, since the two overlap or touch. `b` is a bound that the intervals
-- before the inserted one give.
structure Absorbed (i : Interval) (js ks : List Interval) : Prop where
  canonical : Canonical ⟨ks⟩
  mem_iff   : ∀ v, v ∈ (⟨ks⟩ : IntervalSet) ↔ v ∈ i ∨ v ∈ (⟨js⟩ : IntervalSet)
  above     : ∀ b : Int, b < i.start.toInt → (∀ j ∈ js, b < j.start.toInt) →
    ∀ k ∈ ks, b < k.start.toInt

theorem absorb_absorbed (hi : i.start.toInt ≤ i.stop.toInt) (hj : Canonical ⟨js⟩)
    (hr : ∀ j ∈ js, i.start.toInt ≤ j.stop.toInt + 1) : Absorbed i js (absorb i js) := by
  induction js generalizing i
  case nil =>
    refine ⟨canonical_cons.mpr ⟨Int32.le_iff_toInt_le.mpr hi, by simp, hj⟩, ?_, ?_⟩
    · simp [absorb_nil, mem_def]
    · simp +contextual [absorb_nil]
  case cons j js ih =>
    have ⟨hle, ha, hj'⟩ := canonical_cons.mp hj
    have hle := Int32.le_iff_toInt_le.mp hle
    have hij := hr j (List.mem_cons_self ..)
    rw [absorb_cons]
    split
    case isTrue ht =>
      let m : Interval := ⟨min i.start j.start, max i.stop j.stop⟩
      have hm : Absorbed m js (absorb m js) := by
        refine ih ?_ hj' fun k hk => ?_
        · simp only [m, Interval.toInt_min, Interval.toInt_max]
          omega
        · have := hr k (List.mem_cons_of_mem _ hk)
          simp only [m, Interval.toInt_min]
          omega
      refine ⟨hm.canonical, fun v => ?_, fun b hb hbj => hm.above b ?_ ?_⟩
      · rw [hm.mem_iff]
        simp only [m, mem_def, List.mem_cons, exists_eq_or_imp, Interval.mem_iff_toInt,
          Interval.toInt_min, Interval.toInt_max, ← or_assoc]
        refine or_congr_left ?_
        omega
      · have := hbj j (List.mem_cons_self ..)
        simp only [m, Interval.toInt_min]
        omega
      · exact fun k hk => hbj k (List.mem_cons_of_mem _ hk)
    case isFalse ht =>
      refine ⟨canonical_cons.mpr ⟨Int32.le_iff_toInt_le.mpr hi, fun k hk => ?_, hj⟩, ?_, ?_⟩
      · rcases List.mem_cons.mp hk with rfl | hk
        · omega
        · have := ha k hk
          omega
      · simp [mem_def]
      · exact fun b hb hbj => List.forall_mem_cons.mpr ⟨hb, hbj⟩

theorem insertRange_absorbed (h : s.Canonical) (hle : start ≤ stop) : ∃ a b ks,
    s = ⟨a ++ b⟩ ∧ s.insertRange start stop = ⟨a ++ ks⟩ ∧
      (∀ i ∈ a, i.stop.toInt + 1 < start.toInt) ∧ Absorbed ⟨start, stop⟩ b ks := by
  obtain ⟨is⟩ := s
  obtain ⟨a, b, rfl, ha, hb⟩ := h.exists_parts start
  have ⟨_, hcb, _⟩ := canonical_append.mp h
  have hp : partitionPoint (fun i => i.stop.toInt + 1 < start.toInt) (a ++ b) = a.length := by
    refine partitionPoint_append (fun i hi => ?_) (fun i hi => ?_)
    · simpa using ha i hi
    · have := hb i hi
      simp only [decide_eq_true_eq]
      omega
  refine ⟨a, b, absorb ⟨start, stop⟩ b, rfl, ?_, ha, ?_⟩
  · simp [insertRange_parts, Int32.not_lt.mpr hle, hp]
  · exact absorb_absorbed (Int32.le_iff_toInt_le.mp hle) hcb hb

theorem Canonical.insertRange (h : s.Canonical) (start stop : Int32) :
    (s.insertRange start stop).Canonical := by
  by_cases hle : start ≤ stop
  case neg => simpa [insertRange_parts, Int32.not_le.mp hle] using h
  case pos =>
    obtain ⟨a, b, ks, rfl, hks, ha, hab⟩ := insertRange_absorbed h hle
    have ⟨hca, _, hap⟩ := canonical_append.mp h
    rw [hks]
    exact canonical_append.mpr
      ⟨hca, hab.canonical, fun i hi => hab.above _ (ha i hi) (hap i hi)⟩

theorem Canonical.mem_insertRange (h : s.Canonical) :
    v ∈ s.insertRange start stop ↔ v ∈ s ∨ start ≤ v ∧ v ≤ stop := by
  by_cases hle : start ≤ stop
  case neg =>
    have hn : ¬(start ≤ v ∧ v ≤ stop) := fun ⟨h₁, h₂⟩ => hle (Int32.le_trans h₁ h₂)
    simp [insertRange_parts, Int32.not_le.mp hle, hn]
  case pos =>
    obtain ⟨a, b, ks, rfl, hks, _, hab⟩ := insertRange_absorbed h hle
    rw [hks, mem_append, mem_append, hab.mem_iff, Interval.mem_def, or_assoc]
    exact or_congr_right Or.comm

theorem Canonical.union_intervals (h : s.Canonical) (is : List Interval) :
    (s.union ⟨is⟩).Canonical ∧ ∀ v, v ∈ s.union ⟨is⟩ ↔ v ∈ s ∨ v ∈ (⟨is⟩ : IntervalSet) := by
  induction is generalizing s
  case nil => exact ⟨h, by simp [union_eq, mem_def]⟩
  case cons i is hi =>
    have ⟨hc, hm⟩ := hi (h.insertRange i.start i.stop)
    rw [union_cons]
    refine ⟨hc, fun v => (hm v).trans ?_⟩
    simp [h.mem_insertRange, mem_def, Interval.mem_def, or_assoc]

theorem Canonical.union (h : s.Canonical) : (s.union t).Canonical :=
  (h.union_intervals t.intervals).left

theorem Canonical.mem_union (h : s.Canonical) : v ∈ s.union t ↔ v ∈ s ∨ v ∈ t :=
  (h.union_intervals t.intervals).right v

end Canonical

theorem mem_ofRange : v ∈ ofRange start stop ↔ start ≤ v ∧ v ≤ stop := by
  refine Canonical.empty.mem_insertRange.trans ?_
  simp [mem_def, empty]

theorem mem_singleton {w : Int32} : v ∈ singleton w ↔ v = w := by
  refine mem_ofRange.trans ?_
  exact ⟨fun ⟨h₁, h₂⟩ => Int32.le_antisymm h₂ h₁, fun h => by simp [h]⟩

end IntervalSet
end Caret
