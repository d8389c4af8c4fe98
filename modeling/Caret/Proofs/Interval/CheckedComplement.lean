import Caret.Proofs.Interval.Recipes

-- Complements in checked arithmetic. Every bound of a gap is a 32-bit number, so nothing wraps
-- around, and the complement of a complement is what the set holds between the bounds.
namespace Caret

namespace IntervalSet

def complement? (s : IntervalSet) (min max : Int32) : Option IntervalSet :=
  s.complementM min max

variable {s : IntervalSet} {min max : Int32}

theorem Built.mem_complement_complement (h : s.Built) {v : Int32} :
    v ∈ (s.complement min max).complement min max ↔ v ∈ s ∧ min ≤ v ∧ v ≤ max := by
  rw [h.canonical.complement.mem_complement, h.canonical.mem_complement]
  tauto

-- The complement of a set that the operations give is canonical and holds just the values between
-- the bounds that the set does not hold. Checked arithmetic never fails, and a second complement
-- gives back what the set holds between the bounds.
theorem complement_exact (h : s.Built) (min max : Int32) :
    (∀ v, v ∈ s.complement min max ↔ min ≤ v ∧ v ≤ max ∧ v ∉ s) ∧
    (s.complement min max).Canonical ∧
    s.complement? min max = some (s.complement min max) ∧
    ∀ v, v ∈ (s.complement min max).complement min max ↔ v ∈ s ∧ min ≤ v ∧ v ≤ max :=
  ⟨fun _ => h.canonical.mem_complement, h.canonical.complement, complementM_eq s min max,
    fun _ => h.mem_complement_complement⟩

-- The set reaches both ends of the 32-bit range. Bounds in the wrong order leave nothing.
theorem complement_exact_extremes :
    Recipe.extremes.set.Built ∧
    Recipe.extremes.set.complement Int32.minValue Int32.maxValue =
      ofRange (Int32.minValue + 2) (Int32.maxValue - 2) ∧
    Recipe.extremes.set.complement? Int32.minValue Int32.maxValue =
      some (ofRange (Int32.minValue + 2) (Int32.maxValue - 2)) ∧
    (ofRange (Int32.minValue + 2) (Int32.maxValue - 2)).Canonical ∧
    Int32.maxValue ∈ (ofRange (Int32.minValue + 2) (Int32.maxValue - 2)).complement Int32.minValue
      Int32.maxValue ∧
    ∀ v, v ∉ Recipe.extremes.set.complement 5 3 := by
  have hb := Recipe.extremes.built_set
  have he : Recipe.extremes.set.complement Int32.minValue Int32.maxValue =
      ofRange (Int32.minValue + 2) (Int32.maxValue - 2) := by
    decide +kernel
  have hmem : Int32.maxValue ∈ Recipe.extremes.set := mem_of_contains (by decide +kernel)
  obtain ⟨_, hcanonical, hchecked, htwice⟩ :=
    complement_exact hb Int32.minValue Int32.maxValue
  obtain ⟨hinverted, _⟩ := complement_exact hb 5 3
  have hmax := (htwice _).mpr ⟨hmem, by decide, by decide⟩
  rw [he] at hcanonical hchecked hmax
  refine ⟨hb, he, hchecked, hcanonical, hmax, fun v hv => ?_⟩
  obtain ⟨h₁, h₂, _⟩ := (hinverted v).mp hv
  exact absurd (Int32.le_trans h₁ h₂) (by decide)

end IntervalSet
end Caret
