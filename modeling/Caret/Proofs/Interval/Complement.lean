import Caret.Proofs.Interval.Members

-- The complement of a canonical set holds the values between two bounds that the set does not hold.
namespace Caret
namespace IntervalSet

variable {s found : IntervalSet} {i : Interval} {is : List Interval} {v min max : Int32}
  {next : Int}

theorem mem_cons : v ∈ (⟨i :: is⟩ : IntervalSet) ↔ v ∈ i ∨ v ∈ (⟨is⟩ : IntervalSet) := by
  simp [mem_def]

theorem Canonical.not_mem_of_lt (h : Canonical ⟨i :: is⟩) (hv : v.toInt < i.start.toInt) :
    v ∉ (⟨i :: is⟩ : IntervalSet) := by
  have ⟨hle, ha, _⟩ := canonical_cons.mp h
  have hle := Int32.le_iff_toInt_le.mp hle
  rintro ⟨j, hj, hm⟩
  have hm := Interval.mem_iff_toInt.mp hm
  rcases List.mem_cons.mp hj with rfl | hj
  · omega
  · have := ha j hj
    omega

-- A bound inside the 32-bit range is kept when it is stored.
theorem Canonical.mem_insertRange_ofInt (h : found.Canonical) (hlo : -2 ^ 31 ≤ next)
    (hhi : next ≤ max.toInt) :
    v ∈ found.insertRange (Int32.ofInt next) max ↔
      v ∈ found ∨ next ≤ v.toInt ∧ v.toInt ≤ max.toInt := by
  have := max.toInt_lt
  rw [h.mem_insertRange, Int32.le_iff_toInt_le, Int32.le_iff_toInt_le,
    Int32.toInt_ofInt_of_le (by omega) (by omega)]

section Lawful

variable {m : Type → Type} [Monad m] [Arithmetic m] [LawfulArithmetic m]

-- The gap is not empty, so a value precedes the start of the interval.
theorem fillM_gap (hn : -2 ^ 31 ≤ next) :
    (found.fillM next i : m IntervalSet) = pure (if next < i.start.toInt
      then found.insertRange (Int32.ofInt next) (Int32.ofInt (i.start.toInt - 1)) else found) := by
  have hhi := i.start.toInt_lt
  rw [fillM]
  split
  case isTrue hlt =>
    rw [narrow_eq hn (by omega), narrow_eq (by omega) (by omega)]
    simp only [pure_bind, insertRangeM_eq]
  case isFalse => rfl

theorem fill_gap (hn : -2 ^ 31 ≤ next) :
    found.fill next i = if next < i.start.toInt
      then found.insertRange (Int32.ofInt next) (Int32.ofInt (i.start.toInt - 1)) else found :=
  fillM_gap (m := Id) hn

theorem fillM_eq (hn : -2 ^ 31 ≤ next) :
    (found.fillM next i : m IntervalSet) = pure (found.fill next i) := by
  rw [fillM_gap hn, fill_gap hn]

theorem gaps_nil : gaps max [] next found = (next, found) :=
  rfl

theorem gaps_cons (hn : -2 ^ 31 ≤ next) :
    gaps max (i :: is) next found =
      if i.stop.toInt < next then gaps max is next found
      else if max.toInt < i.start.toInt then (next, found)
      else gaps max is (i.stop.toInt + 1) (found.fill next i) := by
  simp only [gaps, gapsM, fillM_eq hn, Interval.nextM_eq, pure_bind]
  split
  case isTrue  => rfl
  case isFalse => split <;> rfl

-- The first value that is not decided never lies below the 32-bit range.
theorem gapsM_eq (max : Int32) (is : List Interval) (found : IntervalSet) (hn : -2 ^ 31 ≤ next) :
    (gapsM max is next found : m (Int × IntervalSet)) = pure (gaps max is next found) ∧
      -2 ^ 31 ≤ (gaps max is next found).1 := by
  induction is generalizing next found
  case nil => exact ⟨rfl, hn⟩
  case cons i is hi =>
    have hstop := i.stop.le_toInt
    rw [gapsM, gaps_cons hn]
    simp only [fillM_eq hn, Interval.nextM_eq, pure_bind]
    split
    case isTrue  => exact hi _ hn
    case isFalse =>
      split
      case isTrue  => exact ⟨rfl, hn⟩
      case isFalse => exact hi _ (by omega)

theorem complementM_gaps (s : IntervalSet) (min max : Int32) :
    (s.complementM min max : m IntervalSet) =
      let (next, found) := gaps max s.intervals min.toInt empty
      pure (if next ≤ max.toInt then found.insertRange (Int32.ofInt next) max else found) := by
  have ⟨hgaps, hn⟩ := gapsM_eq (m := m) max s.intervals empty min.le_toInt
  have hhi := max.toInt_lt
  rw [complementM, hgaps, pure_bind]
  generalize gaps max s.intervals min.toInt empty = rest at hn
  obtain ⟨next, found⟩ := rest
  dsimp only at hn ⊢
  split
  case isTrue hle =>
    rw [narrow_eq hn (by omega), narrow_eq max.le_toInt hhi, Int32.ofInt_toInt]
    simp only [pure_bind, insertRangeM_eq]
  case isFalse => rfl

theorem complement_gaps (s : IntervalSet) (min max : Int32) :
    s.complement min max =
      let (next, found) := gaps max s.intervals min.toInt empty
      if next ≤ max.toInt then found.insertRange (Int32.ofInt next) max else found :=
  complementM_gaps (m := Id) s min max

theorem complementM_eq (s : IntervalSet) (min max : Int32) :
    (s.complementM min max : m IntervalSet) = pure (s.complement min max) := by
  rw [complementM_gaps, complement_gaps]

end Lawful

theorem Canonical.fill (h : found.Canonical) (hn : -2 ^ 31 ≤ next) :
    (found.fill next i).Canonical ∧
      ∀ v, v ∈ found.fill next i ↔ v ∈ found ∨ next ≤ v.toInt ∧ v.toInt < i.start.toInt := by
  rw [fill_gap hn]
  by_cases hlt : next < i.start.toInt
  case pos =>
    have hhi := i.start.toInt_lt
    have he : (Int32.ofInt (i.start.toInt - 1)).toInt = i.start.toInt - 1 :=
      Int32.toInt_ofInt_of_le (by omega) (by omega)
    rw [if_pos hlt]
    refine ⟨h.insertRange _ _, fun v => (h.mem_insertRange_ofInt hn (by omega)).trans ?_⟩
    rw [he]
    exact or_congr_right (and_congr_right fun _ => by omega)
  case neg =>
    rw [if_neg hlt]
    exact ⟨h, fun v => (or_iff_left (by omega)).symm⟩

-- What is left once the gaps between the intervals were inserted: the values from `rest.1` on are
-- not decided, and none of them up to `max` is in the set.
structure Gapped (max : Int32) (is : List Interval) (next : Int) (found : IntervalSet)
    (rest : Int × IntervalSet) : Prop where
  canonical : rest.2.Canonical
  bound     : -2 ^ 31 ≤ rest.1
  mem_iff   : ∀ v : Int32, v ∈ rest.2 ∨ rest.1 ≤ v.toInt ∧ v.toInt ≤ max.toInt ↔
    v ∈ found ∨ next ≤ v.toInt ∧ v.toInt ≤ max.toInt ∧ v ∉ (⟨is⟩ : IntervalSet)

theorem gaps_gapped (hc : Canonical ⟨is⟩) (hf : found.Canonical) (hn : -2 ^ 31 ≤ next) :
    Gapped max is next found (gaps max is next found) := by
  induction is generalizing next found
  case nil => exact ⟨hf, hn, by simp [gaps_nil, mem_def]⟩
  case cons i is hi =>
    have ⟨hle, ha, hc'⟩ := canonical_cons.mp hc
    have hle := Int32.le_iff_toInt_le.mp hle
    rw [gaps_cons hn]
    split
    case isTrue hb =>
      have h := hi hc' hf hn
      refine ⟨h.canonical, h.bound, fun v => (h.mem_iff v).trans ?_⟩
      simp only [mem_cons, Interval.mem_iff_toInt]
      refine or_congr_right (and_congr_right fun hv => and_congr_right fun _ => not_congr ?_)
      exact (or_iff_right (by omega)).symm
    case isFalse hb =>
      split
      case isTrue hm =>
        refine ⟨hf, hn, fun v => or_congr_right (and_congr_right fun _ => ?_)⟩
        exact (and_iff_left_of_imp fun hv => hc.not_mem_of_lt (by omega)).symm
      case isFalse hm =>
        have ⟨hf', hm'⟩ := hf.fill (i := i) hn
        have h := hi hc' hf' (show -2 ^ 31 ≤ i.stop.toInt + 1 by omega)
        refine ⟨h.canonical, h.bound, fun v => (h.mem_iff v).trans ?_⟩
        have hbelow : v.toInt < i.start.toInt → v ∉ (⟨i :: is⟩ : IntervalSet) := hc.not_mem_of_lt
        rw [hm']
        simp only [mem_cons, Interval.mem_iff_toInt] at hbelow ⊢
        grind

theorem Canonical.complement_gapped (h : s.Canonical) (min max : Int32) :
    (s.complement min max).Canonical ∧
      ∀ v, v ∈ s.complement min max ↔ min ≤ v ∧ v ≤ max ∧ v ∉ s := by
  have hg : Gapped max s.intervals min.toInt .empty (gaps max s.intervals min.toInt .empty) :=
    gaps_gapped h Canonical.empty min.le_toInt
  have hiff (v : Int32) : min ≤ v ∧ v ≤ max ∧ v ∉ s ↔
      v ∈ IntervalSet.empty ∨ min.toInt ≤ v.toInt ∧ v.toInt ≤ max.toInt ∧ v ∉ s := by
    simp [mem_def, IntervalSet.empty, Int32.le_iff_toInt_le]
  rw [complement_gaps]
  generalize gaps max s.intervals min.toInt .empty = rest at hg
  obtain ⟨next, found⟩ := rest
  dsimp only
  split
  case isTrue hle =>
    refine ⟨hg.canonical.insertRange _ _, fun v => ?_⟩
    have hm := hg.canonical.mem_insertRange_ofInt (v := v) hg.bound hle
    exact hm.trans ((hg.mem_iff v).trans (hiff v).symm)
  case isFalse hle =>
    refine ⟨hg.canonical, fun v => ?_⟩
    exact (or_iff_left (by omega)).symm.trans ((hg.mem_iff v).trans (hiff v).symm)

theorem Canonical.complement (h : s.Canonical) : (s.complement min max).Canonical :=
  (h.complement_gapped min max).left

theorem Canonical.mem_complement (h : s.Canonical) :
    v ∈ s.complement min max ↔ min ≤ v ∧ v ≤ max ∧ v ∉ s :=
  (h.complement_gapped min max).right v

end IntervalSet
end Caret
