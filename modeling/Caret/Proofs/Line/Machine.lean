import Caret.Proofs.Line.Counting
import Mathlib.Algebra.Group.Int.Defs
import Mathlib.Algebra.Group.Nat.Defs

-- Counters that are machine words. They have 64 bits, and a result that does not fit into them
-- wraps around without notice. What is logged is each signed amount that is added to a counter,
-- each subtraction, the additions of counters in rotations and each removal of a line. So it can be
-- said of an edit that none of them goes wrong.
namespace Caret

-- The largest signed word.
def maxSigned : Nat :=
  2 ^ 63 - 1

-- What a word keeps of a number.
def wrap (n : Int) : Nat :=
  (n % 2 ^ 64).toNat

theorem wrap_eq {n : Int} {k : Nat} (hk : (k : Int) = n) (hlt : k < 2 ^ 64) : wrap n = k := by
  unfold wrap
  omega

-- A signed amount is added to a word, a word is added to or taken off another one, or a line is
-- removed from a tree.
inductive Move
  | shift (n : Nat) (delta : Int)
  | add (n m : Nat)
  | sub (n m : Nat)
  | remove (t : LineTree) (number : Nat)

-- A number that a signed word can hold.
def Signed (delta : Int) : Prop :=
  -2 ^ 63 ≤ delta ∧ delta < 2 ^ 63

-- The exact result of a computation is a word, and a line that is removed may be removed.
def Move.Exact : Move → Prop
  | shift n delta   => Signed delta ∧ 0 ≤ n + delta ∧ n + delta < 2 ^ 64
  | add n m         => n + m < 2 ^ 64
  | sub n m         => m ≤ n ∧ n < 2 ^ 64
  | remove t number => t.Removable number

-- A computation on words with its log. It has no result if something is missing.
structure Logged (α : Type) where
  moves  : List Move
  result : Option α

namespace Logged

instance : Monad Logged where
  pure a   := ⟨[], some a⟩
  bind x f :=
    match x.result with
    | none   => ⟨x.moves, none⟩
    | some a => ⟨x.moves ++ (f a).moves, (f a).result⟩

instance : Counters Logged where
  shift n delta     := ⟨[.shift n delta], some (wrap (n + delta))⟩
  add n m           := ⟨[.add n m], some (wrap (n + m))⟩
  sub n m           := ⟨[.sub n m], some (wrap (n - m))⟩
  removing t number := ⟨[.remove t number], some ()⟩
  missing           := ⟨[], none⟩
  attempt x         := ⟨x.moves, some x.result⟩

variable {α β : Type}

-- The result is the given one, and nothing wraps around on the way to it.
structure Gives (x : Logged α) (a : α) : Prop where
  result : x.result = some a
  exact  : ∀ m ∈ x.moves, m.Exact

instance : Counters.Outcome Logged where
  Gives := Gives

theorem gives_pure (a : α) : (pure a : Logged α).Gives a :=
  ⟨rfl, by simp [pure]⟩

theorem Gives.bind {x : Logged α} {f : α → Logged β} {a : α} {b : β} (hx : x.Gives a)
    (hf : (f a).Gives b) : (x >>= f).Gives b := by
  have he : x >>= f = ⟨x.moves ++ (f a).moves, (f a).result⟩ := by simp [Bind.bind, hx.result]
  rw [he]
  exact ⟨hf.result, List.forall_mem_append.mpr ⟨hx.exact, hf.exact⟩⟩

theorem Gives.attempt {x : Logged α} {a : α} (hx : x.Gives a) :
    Gives (Counters.attempt x) (some a) :=
  ⟨congrArg some hx.result, hx.exact⟩

-- The only move of a computation that is a single move.
theorem gives_move {move : Move} {a b : α} (he : move.Exact) (hb : a = b) :
    Gives ⟨[move], some a⟩ b :=
  ⟨congrArg some hb, List.forall_mem_singleton.mpr he⟩

theorem exact_logged : Counters.Exact Logged (2 ^ 64) where
  large               := by decide
  pure                := gives_pure
  bind                := Gives.bind
  attempt             := Gives.attempt
  shift hlo hhi hk hlt :=
    gives_move ⟨⟨by omega, by omega⟩, by omega, by omega⟩ (wrap_eq hk hlt)
  add hlt             := gives_move hlt (wrap_eq (by omega) hlt)
  sub hk hlt          := gives_move ⟨by omega, hlt⟩ (wrap_eq (by omega) (by omega))
  removing h          := gives_move h rfl

end Logged
end Caret
