import Caret.Proofs.Interval.Recipes

-- A set of values has one representation. Sets that the operations give are equal as soon as they
-- have the same members, so neither the order nor the grouping of what was added can be seen in
-- them.
namespace Caret
namespace IntervalSet

-- Two ways to write down what is added: in another order, with a range once more, or with a range
-- cut into parts, which may overlap. Parts may also be put together again.
inductive Rearranged : List Interval → List Interval → Prop
  | reorder {is js : List Interval} (h : is.Perm js) : Rearranged is js
  | again {i : Interval} {is : List Interval} (h : i ∈ is) : Rearranged is (i :: is)
  | cut {i : Interval} {parts : List Interval} (is : List Interval)
    (h : ∀ v, v ∈ i ↔ ∃ part ∈ parts, v ∈ part) : Rearranged (i :: is) (parts ++ is)
  | symm {is js : List Interval} (h : Rearranged is js) : Rearranged js is
  | trans {is js ks : List Interval} (h : Rearranged is js) (h' : Rearranged js ks) :
    Rearranged is ks

-- The ranges one after another.
def ofRanges (is : List Interval) : IntervalSet :=
  is.foldl (fun s i => s.insertRange i.start i.stop) empty

-- The ranges that the steps of a recipe add, in order.
def Recipe.ranges : Recipe → List Interval
  | empty                    => []
  | singleton v              => [⟨v, v⟩]
  | ofRange start stop       => [⟨start, stop⟩]
  | ofList vs                => vs.map fun v => ⟨v, v⟩
  | insert r v               => r.ranges ++ [⟨v, v⟩]
  | insertRange r start stop => r.ranges ++ [⟨start, stop⟩]
  | union r t                => r.ranges ++ t.ranges

variable {s t : IntervalSet} {i j : Interval} {is js : List Interval} {v : Int32}

namespace Canonical

theorem start_mem (h : Canonical ⟨i :: is⟩) : i.start ∈ (⟨i :: is⟩ : IntervalSet) :=
  mem_cons.mpr <| .inl ⟨Int32.le_refl _, (canonical_cons.mp h).left⟩

-- The value right behind an interval is missing.
theorem not_mem_next (h : Canonical ⟨i :: is⟩) (hv : v.toInt = i.stop.toInt + 1) :
    v ∉ (⟨i :: is⟩ : IntervalSet) := by
  have ⟨_, ha, _⟩ := canonical_cons.mp h
  rintro ⟨j, hj, hm⟩
  have hm := Interval.mem_iff_toInt.mp hm
  rcases List.mem_cons.mp hj with rfl | hj
  · omega
  · have := ha j hj
    omega

theorem mem_tail (h : Canonical ⟨i :: is⟩) :
    v ∈ (⟨is⟩ : IntervalSet) ↔ v ∈ (⟨i :: is⟩ : IntervalSet) ∧ v ∉ i := by
  have ⟨_, ha, _⟩ := canonical_cons.mp h
  rw [mem_cons, or_and_right, or_iff_right fun hv => hv.right hv.left]
  refine (and_iff_left_of_imp ?_).symm
  rintro ⟨j, hj, hm⟩ hv
  have := ha j hj
  have hm := Interval.mem_iff_toInt.mp hm
  have hv := Interval.mem_iff_toInt.mp hv
  omega

theorem start_le_start (h : Canonical ⟨i :: is⟩) (h' : Canonical ⟨j :: js⟩)
    (hm : ∀ v, v ∈ (⟨j :: js⟩ : IntervalSet) → v ∈ (⟨i :: is⟩ : IntervalSet)) :
    i.start.toInt ≤ j.start.toInt := by
  by_contra hlt
  exact h.not_mem_of_lt (Int.not_le.mp hlt) (hm j.start h'.start_mem)

-- If the first interval were shorter, the value behind it would be missing.
theorem stop_le_stop (h : Canonical ⟨i :: is⟩) (hs : j.start.toInt = i.start.toInt)
    (hm : ∀ v, v ∈ (⟨j :: js⟩ : IntervalSet) → v ∈ (⟨i :: is⟩ : IntervalSet)) :
    j.stop.toInt ≤ i.stop.toInt := by
  by_contra hlt
  have hle := h.start_le (List.mem_cons_self ..)
  have hlo := i.stop.le_toInt
  have hhi := j.stop.toInt_lt
  have hnext : (Int32.ofInt (i.stop.toInt + 1)).toInt = i.stop.toInt + 1 :=
    Int32.toInt_ofInt_of_le (by omega) (by omega)
  refine h.not_mem_next hnext (hm _ (mem_cons.mpr (.inl ?_)))
  rw [Interval.mem_iff_toInt, hnext]
  omega

theorem head_eq (h : Canonical ⟨i :: is⟩) (h' : Canonical ⟨j :: js⟩)
    (hm : ∀ v, v ∈ (⟨i :: is⟩ : IntervalSet) ↔ v ∈ (⟨j :: js⟩ : IntervalSet)) : i = j := by
  have hstart : i.start.toInt = j.start.toInt :=
    Int.le_antisymm (h.start_le_start h' fun v => (hm v).mpr)
      (h'.start_le_start h fun v => (hm v).mp)
  have hstop : i.stop.toInt = j.stop.toInt :=
    Int.le_antisymm (h'.stop_le_stop hstart fun v => (hm v).mp)
      (h.stop_le_stop hstart.symm fun v => (hm v).mpr)
  cases i
  cases j
  rw [Interval.mk.injEq]
  exact ⟨Int32.toInt.inj hstart, Int32.toInt.inj hstop⟩

-- The first intervals are the same, and what is left has the same members.
theorem eq_of_mem_iff (h : s.Canonical) (h' : t.Canonical) (hm : ∀ v, v ∈ s ↔ v ∈ t) : s = t := by
  obtain ⟨is⟩ := s
  obtain ⟨js⟩ := t
  induction is generalizing js
  case nil =>
    cases js
    case nil       => rfl
    case cons j js => simpa [mem_def] using (hm j.start).mpr h'.start_mem
  case cons i is hi =>
    cases js
    case nil       => simpa [mem_def] using (hm i.start).mp h.start_mem
    case cons j js =>
      obtain rfl := h.head_eq h' hm
      have htail (v : Int32) : v ∈ (⟨is⟩ : IntervalSet) ↔ v ∈ (⟨js⟩ : IntervalSet) := by
        rw [h.mem_tail, h'.mem_tail, hm]
      have he := hi (canonical_cons.mp h).right.right js (canonical_cons.mp h').right.right htail
      rw [mk.injEq] at he ⊢
      rw [he]

theorem union_comm (h : s.Canonical) (h' : t.Canonical) : s.union t = t.union s :=
  h.union.eq_of_mem_iff h'.union fun v => by rw [h.mem_union, h'.mem_union, or_comm]

theorem union_assoc (h : s.Canonical) (h' : t.Canonical) (u : IntervalSet) :
    (s.union t).union u = s.union (t.union u) :=
  h.union.union.eq_of_mem_iff h.union fun v => by
    rw [h.union.mem_union, h.mem_union, h.mem_union, h'.mem_union, or_assoc]

theorem union_self (h : s.Canonical) : s.union s = s :=
  h.union.eq_of_mem_iff h fun v => by rw [h.mem_union, or_self]

end Canonical

theorem Rearranged.mem_iff (h : Rearranged is js) (v : Int32) :
    v ∈ (⟨is⟩ : IntervalSet) ↔ v ∈ (⟨js⟩ : IntervalSet) := by
  induction h
  case reorder hp    => simp only [mem_def, hp.mem_iff]
  case again i is hi =>
    rw [mem_cons]
    exact (or_iff_right_of_imp fun hv => ⟨i, hi, hv⟩).symm
  case cut i parts is hc =>
    rw [mem_cons, mem_append]
    exact or_congr_left (hc v)
  case symm hi      => exact hi.symm
  case trans hi hi' => exact hi.trans hi'

theorem ofRanges_eq (is : List Interval) : ofRanges is = empty.union ⟨is⟩ := by
  rw [union_eq, ofRanges]

theorem ofRanges_canonical (is : List Interval) : (ofRanges is).Canonical := by
  rw [ofRanges_eq]
  exact Canonical.empty.union

theorem mem_ofRanges : v ∈ ofRanges is ↔ v ∈ (⟨is⟩ : IntervalSet) := by
  rw [ofRanges_eq, Canonical.empty.mem_union]
  exact or_iff_right (by simp [mem_def, empty])

theorem Recipe.adds_iff_ranges (r : Recipe) : r.Adds v ↔ v ∈ (⟨r.ranges⟩ : IntervalSet) := by
  induction r
  case insert hi      => simp [Adds, ranges, hi, mem_def, Interval.mem_def, between_self]
  case insertRange hi => simp [Adds, ranges, hi, mem_def, Interval.mem_def]
  case union hi hi'   => rw [Adds, ranges, mem_append, hi, hi']
  all_goals simp [Adds, ranges, mem_def, Interval.mem_def, between_self]

-- Sets that the operations give are equal if and only if they have the same members. Ranges that
-- are added in any order, again, in parts or through sets of their own give the set that they give
-- one after another, and the union is commutative, associative and idempotent.
theorem built_unique :
    (∀ s t : IntervalSet, s.Built → t.Built → (s = t ↔ ∀ v, v ∈ s ↔ v ∈ t)) ∧
    (∀ (is : List Interval) (r : Recipe), Rearranged is r.ranges → r.set = ofRanges is) ∧
    (∀ s t : IntervalSet, s.Built → t.Built → s.union t = t.union s) ∧
    (∀ s t u : IntervalSet, s.Built → t.Built → u.Built →
      (s.union t).union u = s.union (t.union u)) ∧
    ∀ s : IntervalSet, s.Built → s.union s = s := by
  refine ⟨fun s t hs ht => ⟨fun he v => by rw [he], ?_⟩, fun is r hr => ?_,
    fun s t hs ht => hs.canonical.union_comm ht.canonical,
    fun s t u hs ht _ => hs.canonical.union_assoc ht.canonical u,
    fun s hs => hs.canonical.union_self⟩
  · exact hs.canonical.eq_of_mem_iff ht.canonical
  · refine r.canonical_set.eq_of_mem_iff (ofRanges_canonical is) fun v => ?_
    rw [r.mem_set, r.adds_iff_ranges, mem_ofRanges, hr.mem_iff]

-- Two ranges, the first in parts that overlap, the second twice, gathered in two sets.
def parted : Recipe :=
  .union (.insertRange (.ofRange 5 9) 12 20) (.insertRange (.ofRange 12 20) 1 6)

theorem parted_rearranged : Rearranged [⟨1, 9⟩, ⟨12, 20⟩] parted.ranges := by
  have hcut : Rearranged [⟨1, 9⟩, ⟨12, 20⟩] ([⟨1, 6⟩, ⟨5, 9⟩] ++ [⟨12, 20⟩]) := by
    refine .cut _ fun v => ?_
    simp [Interval.mem_iff_toInt]
    omega
  have hagain : Rearranged ([⟨1, 6⟩, ⟨5, 9⟩] ++ [⟨12, 20⟩]) [⟨12, 20⟩, ⟨1, 6⟩, ⟨5, 9⟩, ⟨12, 20⟩] :=
    .again (by simp)
  have hreorder : Rearranged [⟨12, 20⟩, ⟨1, 6⟩, ⟨5, 9⟩, ⟨12, 20⟩] parted.ranges :=
    .reorder (by decide)
  exact (hcut.trans hagain).trans hreorder

theorem built_unique_parted :
    parted.set.Built ∧ ((IntervalSet.ofRange 10 11).complement 1 20).Built ∧
    parted.set = (IntervalSet.ofRange 10 11).complement 1 20 ∧
    Rearranged [⟨1, 9⟩, ⟨12, 20⟩] parted.ranges ∧
    parted.set = ofRanges [⟨1, 9⟩, ⟨12, 20⟩] ∧
    (IntervalSet.ofRange 10 11).union parted.set = parted.set.union (.ofRange 10 11) ∧
    (parted.set.union (.singleton 10)).union (.singleton 11) =
      parted.set.union ((IntervalSet.singleton 10).union (.singleton 11)) ∧
    parted.set.union parted.set = parted.set := by
  have hp := parted.built_set
  have hc := (Built.ofRange 10 11).complement 1 20
  have hm (v : Int32) : v ∈ parted.set ↔ v ∈ (IntervalSet.ofRange 10 11).complement 1 20 := by
    rw [parted.mem_set, (Built.ofRange 10 11).canonical.mem_complement, mem_ofRange]
    simp [parted, Recipe.Adds, Int32.le_iff_toInt_le]
    omega
  obtain ⟨hext, hranges, hcomm, hassoc, hself⟩ := built_unique
  exact ⟨hp, hc, (hext _ _ hp hc).mpr hm, parted_rearranged, hranges _ _ parted_rearranged,
    hcomm _ _ (.ofRange 10 11) hp, hassoc _ _ _ hp (.singleton 10) (.singleton 11), hself _ hp⟩

end IntervalSet
end Caret
