-- The slots that the nodes of a tree are kept in. A slot that has been given back is used again
-- before a new one is added.
namespace Caret

structure Slots where
  size : Nat
  free : List Nat
deriving DecidableEq

namespace Slots

-- So many slots, all of them in use.
def used (size : Nat) : Slots :=
  ⟨size, []⟩

-- A slot for a new node.
def take (s : Slots) : Nat × Slots :=
  match s.free with
  | []           => (s.size, { s with size := s.size + 1 })
  | slot :: free => (slot, { s with free })

-- Gives a slot back.
def release (s : Slots) (slot : Nat) : Slots :=
  { s with free := slot :: s.free }

end Slots
end Caret
