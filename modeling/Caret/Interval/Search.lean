-- Binary search for the point where a test stops holding. On a list whose elements pass the test up
-- to some point and fail it from there on, the result is that point; on any other list it is the
-- place where the probes below end.
namespace Caret

-- Halves the list until one element is left. The middle element decides which half is kept: it
-- heads the upper half if it passes, and stays behind the lower half if it fails.
def partitionPointM {m : Type → Type} [Monad m] {α : Type} (p : α → m Bool) : List α → m Nat
  | []           => return 0
  | [x]          => return if ← p x then 1 else 0
  | x :: y :: zs => do
    let xs   := x :: y :: zs
    let half := xs.length / 2
    if ← p (xs[half]?.getD x)
    then return half + (← partitionPointM p (xs.drop half))
    else partitionPointM p (xs.take (xs.length - half))
termination_by xs => xs.length
decreasing_by all_goals simp [List.length_take, List.length_drop]; omega

def partitionPoint {α : Type} (p : α → Bool) (xs : List α) : Nat :=
  Id.run (partitionPointM (fun x => return p x) xs)

end Caret
