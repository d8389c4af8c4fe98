import Caret.Proofs.Interval.Complement
import Mathlib.Data.Int.Interval

-- Sets that are put together by insertions and unions. Whatever the steps were, such a set is
-- canonical, it holds what was added, and no computation with its bounds leaves the 64-bit range.
namespace Caret

namespace Interval

variable {i : Interval} {v : Int32}

theorem length_toList : i.toList.length = (i.stop.toInt - i.start.toInt + 1).toNat := by
  simp [toList]

theorem toList_pairwise : i.toList.Pairwise (· < ·) := by
  have hlo := i.start.le_toInt
  have hhi := i.stop.toInt_lt
  rw [toList, List.pairwise_map]
  refine List.pairwise_lt_range.imp_of_mem fun ha hb hlt => ?_
  rw [List.mem_range] at ha hb
  rw [Int32.lt_iff_toInt_lt, Int32.toInt_ofInt_of_le (by omega) (by omega),
    Int32.toInt_ofInt_of_le (by omega) (by omega)]
  omega

-- Only the size of an inverted interval does not fit.
theorem sizeM_length {m : Type → Type} [Monad m] [Arithmetic m] [LawfulArithmetic m]
    (h : i.start ≤ i.stop) : (i.sizeM : m Nat) = pure i.toList.length := by
  have hle := Int32.le_iff_toInt_le.mp h
  have hlo := i.start.le_toInt
  have hhi := i.stop.toInt_lt
  have hlength : i.stop.toInt - i.start.toInt + 1 = i.toList.length := by
    rw [length_toList]
    omega
  rw [sizeM, wide_eq (by omega) (by omega)]
  simp only [pure_bind]
  rw [wide_eq (by omega) (by omega), pure_bind, hlength, count_eq (by omega)]

end Interval

namespace IntervalSet

-- The sets that the operations give, one from another.
inductive Built : IntervalSet → Prop
  | empty : Built .empty
  | singleton (v : Int32) : Built (.singleton v)
  | ofRange (start stop : Int32) : Built (.ofRange start stop)
  | ofList (vs : List Int32) : Built (.ofList vs)
  | insert {s : IntervalSet} (h : Built s) (v : Int32) : Built (s.insert v)
  | insertRange {s : IntervalSet} (h : Built s) (start stop : Int32) :
    Built (s.insertRange start stop)
  | union {s t : IntervalSet} (h : Built s) (h' : Built t) : Built (s.union t)
  | complement {s : IntervalSet} (h : Built s) (min max : Int32) : Built (s.complement min max)

variable {s : IntervalSet} {i : Interval} {is : List Interval} {v w start stop : Int32}

theorem Canonical.toList_pairwise (h : s.Canonical) : s.toList.Pairwise (· < ·) := by
  rw [toList, List.pairwise_flatMap]
  refine ⟨fun i _ => Interval.toList_pairwise, h.apart.imp fun hij v hv w hw => ?_⟩
  have hv := Interval.mem_iff_toInt.mp (Interval.mem_toList.mp hv)
  have hw := Interval.mem_iff_toInt.mp (Interval.mem_toList.mp hw)
  rw [Int32.lt_iff_toInt_lt]
  omega

-- The members are distinct 32-bit numbers.
theorem Canonical.length_toList_le (h : s.Canonical) : s.toList.length ≤ 2 ^ 32 := by
  have hnodup : (s.toList.map Int32.toInt).Nodup :=
    List.Nodup.map (fun _ _ => Int32.toInt.inj) (h.toList_pairwise.imp Int32.ne_of_lt)
  have hsub : (s.toList.map Int32.toInt).toFinset ⊆ Finset.Ico (-2 ^ 31) (2 ^ 31) := by
    intro n hn
    obtain ⟨v, _, rfl⟩ := List.mem_map.mp (List.mem_toFinset.mp hn)
    exact Finset.mem_Ico.mpr ⟨v.le_toInt, v.toInt_lt⟩
  have hcard := Finset.card_le_card hsub
  rwa [List.toFinset_card_of_nodup hnodup, List.length_map, Int.card_Ico] at hcard

section Lawful

variable {m : Type → Type} [Monad m] [Arithmetic m] [LawfulArithmetic m]

theorem sizeM_add (h : Canonical ⟨is⟩) (n : Nat)
    (hn : n + (is.flatMap Interval.toList).length < 2 ^ 64) :
    (is.foldlM (fun total i => do let size ← i.sizeM; count (total + size : Nat)) n : m Nat) =
      pure (n + (is.flatMap Interval.toList).length) := by
  induction is generalizing n
  case nil => rfl
  case cons i is hi =>
    have ⟨hle, _, h'⟩ := canonical_cons.mp h
    rw [List.flatMap_cons, List.length_append, ← Nat.add_assoc] at hn ⊢
    rw [List.foldlM_cons, Interval.sizeM_length hle, pure_bind, count_eq (by omega),
      pure_bind, hi h' _ hn]

theorem Canonical.sizeM_length (h : s.Canonical) : (s.sizeM : m Nat) = pure s.toList.length := by
  have hle := h.length_toList_le
  rw [sizeM, sizeM_add h 0 (by rw [toList] at hle; omega), Nat.zero_add, toList]

theorem Canonical.size_eq_length (h : s.Canonical) : s.size = s.toList.length :=
  h.sizeM_length (m := Id)

theorem Canonical.sizeM_eq (h : s.Canonical) : (s.sizeM : m Nat) = pure s.size := by
  rw [h.sizeM_length, h.size_eq_length]

end Lawful

theorem between_self : w ≤ v ∧ v ≤ w ↔ v = w :=
  ⟨fun h => Int32.le_antisymm h.right h.left, fun h => by simp [h]⟩

-- Both bounds of every interval are members, so a set with one member has one interval.
theorem Canonical.single?_eq_some (h : s.Canonical) :
    s.single? = some w ↔ ∀ v, v ∈ s ↔ v = w := by
  obtain ⟨is⟩ := s
  constructor
  case mp =>
    intro hs v
    rcases is with _ | ⟨i, _ | ⟨j, is⟩⟩ <;> simp [single?] at hs
    obtain ⟨he, rfl⟩ := hs
    simp [mem_def, Interval.mem_def, ← he, between_self]
  case mpr =>
    intro hw
    have hends {i : Interval} (hi : i ∈ is) : i.start = w ∧ i.stop = w := by
      have hle := h.nonempty i hi
      exact ⟨(hw i.start).mp ⟨i, hi, Int32.le_refl _, hle⟩,
        (hw i.stop).mp ⟨i, hi, hle, Int32.le_refl _⟩⟩
    rcases is with _ | ⟨i, _ | ⟨j, is⟩⟩
    · obtain ⟨_, hm, _⟩ := (hw w).mpr rfl
      simp at hm
    · have ⟨hstart, hstop⟩ := hends (List.mem_singleton_self i)
      simp [single?, hstart, hstop]
    · have ⟨_, hapart, _⟩ := canonical_cons.mp h
      have hlt := hapart j (by simp)
      rw [(hends (i := i) (by simp)).right, (hends (i := j) (by simp)).left] at hlt
      omega

-- How a set is put together.
inductive Recipe
  | empty
  | singleton (v : Int32)
  | ofRange (start stop : Int32)
  | ofList (vs : List Int32)
  | insert (r : Recipe) (v : Int32)
  | insertRange (r : Recipe) (start stop : Int32)
  | union (r t : Recipe)

namespace Recipe

def setM {m : Type → Type} [Monad m] [Arithmetic m] : Recipe → m IntervalSet
  | empty                    => return .empty
  | singleton v              => singletonM v
  | ofRange start stop       => ofRangeM start stop
  | ofList vs                => ofListM vs
  | insert r v               => do (← r.setM).insertM v
  | insertRange r start stop => do (← r.setM).insertRangeM start stop
  | union r t                => do (← r.setM).unionM (← t.setM)

def set (r : Recipe) : IntervalSet :=
  Id.run r.setM

-- The same steps in checked arithmetic.
def set? (r : Recipe) : Option IntervalSet :=
  r.setM

-- A value is among those that a step adds.
def Adds (v : Int32) : Recipe → Prop
  | empty                    => False
  | singleton w              => v = w
  | ofRange start stop       => start ≤ v ∧ v ≤ stop
  | ofList vs                => v ∈ vs
  | insert r w               => r.Adds v ∨ v = w
  | insertRange r start stop => r.Adds v ∨ start ≤ v ∧ v ≤ stop
  | union r t                => r.Adds v ∨ t.Adds v

end Recipe

def size? (s : IntervalSet) : Option Nat :=
  s.sizeM

theorem Canonical.mem_insert (h : s.Canonical) : v ∈ s.insert w ↔ v ∈ s ∨ v = w := by
  exact h.mem_insertRange.trans (or_congr_right between_self)

theorem Canonical.insertAll (h : s.Canonical) (vs : List Int32) :
    (vs.foldl insert s).Canonical ∧ ∀ v, v ∈ vs.foldl insert s ↔ v ∈ s ∨ v ∈ vs := by
  induction vs generalizing s
  case nil => exact ⟨h, by simp⟩
  case cons w vs hi =>
    have ⟨hc, hm⟩ := hi (h.insertRange w w)
    refine ⟨hc, fun v => (hm v).trans ?_⟩
    rw [List.mem_cons, ← or_assoc]
    exact or_congr_left h.mem_insert

theorem Built.canonical (h : s.Built) : s.Canonical := by
  induction h
  case empty              => exact .empty
  case singleton v        => exact Canonical.empty.insertRange v v
  case ofRange a b        => exact Canonical.empty.insertRange a b
  case ofList vs          => exact ofList_eq vs ▸ (Canonical.empty.insertAll vs).left
  case insert v hi        => exact hi.insertRange v v
  case insertRange a b hi => exact hi.insertRange a b
  case union hi _         => exact hi.union
  case complement hi      => exact hi.complement

namespace Recipe

variable (r : Recipe)

theorem built_set : r.set.Built := by
  induction r
  case empty              => exact .empty
  case singleton v        => exact .singleton v
  case ofRange a b        => exact .ofRange a b
  case ofList vs          => exact .ofList vs
  case insert v hi        => exact hi.insert v
  case insertRange a b hi => exact hi.insertRange a b
  case union hi hi'       => exact hi.union hi'

theorem canonical_set : r.set.Canonical :=
  r.built_set.canonical

theorem mem_set {v : Int32} : v ∈ r.set ↔ r.Adds v := by
  induction r
  case empty       => simp [set, setM, Adds, mem_def, IntervalSet.empty]
  case singleton w => exact mem_singleton
  case ofRange     => exact mem_ofRange
  case ofList vs   =>
    have hm := (Canonical.empty.insertAll vs).right v
    rw [← ofList_eq] at hm
    exact hm.trans (or_iff_right (by simp [mem_def, IntervalSet.empty]))
  case insert r w hi        => exact r.canonical_set.mem_insert.trans (or_congr_left hi)
  case insertRange r _ _ hi => exact r.canonical_set.mem_insertRange.trans (or_congr_left hi)
  case union r t hi hi'     => exact r.canonical_set.mem_union.trans (or_congr hi hi')

theorem setM_eq {m : Type → Type} [Monad m] [Arithmetic m] [LawfulArithmetic m] :
    (r.setM : m IntervalSet) = pure r.set := by
  induction r
  case empty       => rfl
  case singleton v => exact insertRangeM_eq ..
  case ofRange a b => exact insertRangeM_eq ..
  case ofList vs   => exact ofListM_eq vs
  case insert r v hi =>
    rw [setM, hi, pure_bind, insertM_eq]
    rfl
  case insertRange r a b hi =>
    rw [setM, hi, pure_bind, insertRangeM_eq]
    rfl
  case union r t hi hi' =>
    rw [setM, hi, hi', pure_bind, pure_bind, unionM_eq]
    rfl

-- A set that was put together in any way is canonical, and it holds just what was added: the
-- search, the list of members, their number and the only member tell so. An inverted range adds
-- nothing, and checked arithmetic never fails.
theorem set_faithful :
    r.set.Canonical ∧
    (∀ v, r.set.contains v ↔ r.Adds v) ∧
    r.set.toList.Pairwise (· < ·) ∧
    (∀ v, v ∈ r.set.toList ↔ r.Adds v) ∧
    r.set.size = r.set.toList.length ∧
    (∀ w, r.set.single? = some w ↔ ∀ v, r.Adds v ↔ v = w) ∧
    (∀ start stop, stop < start → r.set.insertRange start stop = r.set) ∧
    r.set? = some r.set ∧
    r.set.size? = some r.set.size := by
  have h := r.canonical_set
  refine ⟨h, fun v => h.contains_iff.trans r.mem_set, h.toList_pairwise,
    fun v => mem_toList.trans r.mem_set, h.size_eq_length, fun w => ?_, fun start stop hlt => ?_,
    r.setM_eq, h.sizeM_eq⟩
  · rw [h.single?_eq_some]
    exact forall_congr' fun v => iff_congr r.mem_set Iff.rfl
  · rw [insertRange_parts, if_pos hlt]

-- Both ends of the 32-bit range, the upper one from two values that touch.
def extremes : Recipe :=
  union (insert (singleton Int32.maxValue) (Int32.maxValue - 1))
    (ofRange Int32.minValue (Int32.minValue + 1))

theorem set_faithful_extremes :
    (3 : Int32) < 5 ∧ extremes.set.insertRange 5 3 = extremes.set ∧
      extremes.set.toList.length = 4 ∧ extremes.set? = some extremes.set ∧
      extremes.set.contains Int32.maxValue := by
  have hlt : (3 : Int32) < 5 := by decide
  have hsize : extremes.set.size = 4 := by decide +kernel
  have hadds : extremes.Adds Int32.maxValue := by simp [extremes, Adds]
  obtain ⟨_, hcontains, _, _, hlength, _, hinverted, hset, _⟩ := set_faithful extremes
  exact ⟨hlt, hinverted 5 3 hlt, hlength.symm.trans hsize, hset, (hcontains _).mpr hadds⟩

end Recipe
end IntervalSet
end Caret
